/-
PCI discovery (pci.c): the host bridge behind the ports 0xCF8 and 0xCFC, the probing of slots and functions
through it, and what the scan has in its table at the end, whatever the configuration space holds.
-/
import Mathlib.Tactic.IntervalCases
import SpectreOS.Lib.Bytes

namespace SpectreOS

open BlockIO

/-! ## Configuration space -/

abbrev pciConfigAddress : BitVec 16 := 0xCF8
abbrev pciConfigData : BitVec 16 := 0xCFC

/-- The registers of all functions: bus, device, function and number of the dword. -/
abbrev ConfigSpace := BitVec 8 → BitVec 5 → BitVec 3 → BitVec 6 → BitVec 32

/-- The host bridge: the address that was written last, and what can be read. -/
structure HostBridge where
  address : BitVec 32
  space : ConfigSpace

def HostBridge.outl (h : HostBridge) (port : BitVec 16) (value : BitVec 32) : HostBridge :=
  if port = pciConfigAddress then { h with address := value } else h

/-- A dword of the function that is addressed; nothing answers while bit 31 is clear. -/
def HostBridge.inl (h : HostBridge) (port : BitVec 16) : BitVec 32 :=
  if port = pciConfigData ∧ h.address.getLsbD 31 = true then
    h.space (h.address.extractLsb' 16 8) (h.address.extractLsb' 11 5) (h.address.extractLsb' 8 3)
      (h.address.extractLsb' 2 6)
  else 0xFFFFFFFF

/-! ## pci.c -/

abbrev pciMaxDevices : Nat := 32

/-- A `pci_device_t`. -/
structure PciDevice where
  bus : Byte
  device : Byte
  function : Byte
  vendorId : BitVec 16
  deviceId : BitVec 16
  classCode : Byte
  subclass : Byte
  progIf : Byte
  revision : Byte
  headerType : Byte
  deriving DecidableEq

/-- The host bridge, and the first `device_count` entries of `devices`. -/
structure PciScan where
  bridge : HostBridge
  devices : List PciDevice

/-- The address of a dword, as `pci_config_read_dword` and `pci_config_write_dword` put it together. -/
def pciAddress (bus device function offset : Byte) : BitVec 32 :=
  (1#32 <<< 31) ||| (bus.setWidth 32 <<< 16) ||| ((device &&& 0x1F).setWidth 32 <<< 11) |||
    ((function &&& 0x07).setWidth 32 <<< 8) ||| (offset.setWidth 32 &&& 0xFC)

def pciConfigReadDword (h : HostBridge) (bus device function offset : Byte) : BitVec 32 × HostBridge :=
  let h := h.outl pciConfigAddress (pciAddress bus device function offset)
  (h.inl pciConfigData, h)

def pciReadVendorId (h : HostBridge) (bus device function : Byte) : BitVec 16 × HostBridge :=
  let (dword, h) := pciConfigReadDword h bus device function 0x00
  ((dword &&& 0xFFFF).setWidth 16, h)

def pciProbeFunction (s : PciScan) (bus device function : Byte) : PciScan :=
  let (vendorId, h) := pciReadVendorId s.bridge bus device function
  if vendorId = 0xFFFF then { s with bridge := h }
  else
    let (dword0, h) := pciConfigReadDword h bus device function 0x00
    let (dword2, h) := pciConfigReadDword h bus device function 0x08
    let (dword3, h) := pciConfigReadDword h bus device function 0x0C
    if pciMaxDevices ≤ s.devices.length then { s with bridge := h }
    else
      { bridge := h
        devices := s.devices ++ [{
          bus, device, function
          vendorId := (dword0 &&& 0xFFFF).setWidth 16
          deviceId := ((dword0 >>> 16) &&& 0xFFFF).setWidth 16
          revision := (dword2 &&& 0xFF).setWidth 8
          progIf := ((dword2 >>> 8) &&& 0xFF).setWidth 8
          subclass := ((dword2 >>> 16) &&& 0xFF).setWidth 8
          classCode := ((dword2 >>> 24) &&& 0xFF).setWidth 8
          headerType := ((dword3 >>> 16) &&& 0xFF).setWidth 8 }] }

def pciProbeDevice (s : PciScan) (bus device : Byte) : PciScan :=
  let (vendorId, h) := pciReadVendorId s.bridge bus device 0
  if vendorId = 0xFFFF then { s with bridge := h }
  else
    let s := pciProbeFunction { s with bridge := h } bus device 0
    let (dword3, h) := pciConfigReadDword s.bridge bus device 0 0x0C
    let headerType : Byte := ((dword3 >>> 16) &&& 0xFF).setWidth 8
    if headerType &&& 0x80 ≠ 0 then
      (List.range' 1 7).foldl
        (fun s function => pciProbeFunction s bus device (BitVec.ofNat 8 function)) { s with bridge := h }
    else { s with bridge := h }

def pciScanBus (h : HostBridge) : PciScan :=
  (List.range 256).foldl (fun s bus =>
    (List.range 32).foldl (fun s device => pciProbeDevice s (BitVec.ofNat 8 bus) (BitVec.ofNat 8 device)) s) ⟨h, []⟩

/-! ## What there is to find -/

/-- All places, in the order of their addresses. -/
def pciPlaces : List (Byte × Byte × Byte) :=
  (List.range 256).flatMap fun bus => (List.range 32).flatMap fun device => (List.range 8).map fun function =>
    (BitVec.ofNat 8 bus, BitVec.ofNat 8 device, BitVec.ofNat 8 function)

namespace ConfigSpace

variable (space : ConfigSpace) (bus device function : Byte)

/-- A dword of the function at a place. -/
def dword (number : BitVec 6) : BitVec 32 := space bus (device.setWidth 5) (function.setWidth 3) number

/-- Whether something answers at a place. -/
def answers : Bool := (space.dword bus device function 0).setWidth 16 ≠ 0xFFFF

def headerType : Byte := (space.dword bus device function 3 >>> 16).setWidth 8

/-- The functions of a device: something answers at function 0, and only a device that says so there has others. -/
def responds : Bool :=
  space.answers bus device 0 && space.answers bus device function &&
    (function = 0 || (space.headerType bus device 0).getLsbD 7)

def describe : PciDevice where
  bus := bus
  device := device
  function := function
  vendorId := (space.dword bus device function 0).setWidth 16
  deviceId := (space.dword bus device function 0 >>> 16).setWidth 16
  revision := (space.dword bus device function 2).setWidth 8
  progIf := (space.dword bus device function 2 >>> 8).setWidth 8
  subclass := (space.dword bus device function 2 >>> 16).setWidth 8
  classCode := (space.dword bus device function 2 >>> 24).setWidth 8
  headerType := space.headerType bus device function

/-- The functions that respond, in order. -/
def found : List PciDevice :=
  (pciPlaces.filter fun p => space.responds p.1 p.2.1 p.2.2).map fun p => space.describe p.1 p.2.1 p.2.2

end ConfigSpace

/-! ## Reading -/

section Reading

variable (h : HostBridge) (bus device function : Byte)

theorem low_half (w : BitVec 32) : (w &&& 0xFFFF).setWidth 16 = w.setWidth 16 := by
  rw [BitVec.setWidth_and]
  exact BitVec.and_allOnes

theorem low_byte (w : BitVec 32) : (w &&& 0xFF).setWidth 8 = w.setWidth 8 := by
  rw [BitVec.setWidth_and]
  exact BitVec.and_allOnes

theorem pciAddress_enable (offset : Byte) : (pciAddress bus device function offset).getLsbD 31 = true := by
  simp [pciAddress]

theorem pciAddress_bus (offset : Byte) : (pciAddress bus device function offset).extractLsb' 16 8 = bus := by
  refine BitVec.eq_of_getLsbD_eq fun i hi => ?_
  interval_cases i <;> simp [pciAddress]

theorem pciAddress_device (offset : Byte) : (pciAddress bus device function offset).extractLsb' 11 5 =
    device.setWidth 5 := by
  refine BitVec.eq_of_getLsbD_eq fun i hi => ?_
  interval_cases i <;> simp [pciAddress]

theorem pciAddress_function (offset : Byte) :
    (pciAddress bus device function offset).extractLsb' 8 3 = function.setWidth 3 := by
  refine BitVec.eq_of_getLsbD_eq fun i hi => ?_
  interval_cases i <;> simp [pciAddress]

theorem pciAddress_dword (offset : Byte) :
    (pciAddress bus device function offset).extractLsb' 2 6 = offset.extractLsb' 2 6 := by
  refine BitVec.eq_of_getLsbD_eq fun i hi => ?_
  interval_cases i <;> simp [pciAddress]

/-- A read gives a dword of the function at the place. -/
theorem pciConfigReadDword_eq (offset : Byte) : pciConfigReadDword h bus device function offset =
    (h.space.dword bus device function (offset.extractLsb' 2 6), ⟨pciAddress bus device function offset, h.space⟩) := by
  refine Prod.ext ?_ rfl
  show HostBridge.inl ⟨pciAddress bus device function offset, h.space⟩ pciConfigData = _
  rw [HostBridge.inl, if_pos ⟨rfl, pciAddress_enable ..⟩]
  simp only [pciAddress_bus, pciAddress_device, pciAddress_function, pciAddress_dword]
  rfl

theorem pciReadVendorId_eq : pciReadVendorId h bus device function =
    ((h.space.dword bus device function 0).setWidth 16, ⟨pciAddress bus device function 0, h.space⟩) := by
  simp only [pciReadVendorId, pciConfigReadDword_eq, low_half]
  rfl

theorem answers_eq_false {space : ConfigSpace} {bus device function : Byte} :
    space.answers bus device function = false ↔ (space.dword bus device function 0).setWidth 16 = 0xFFFF := by
  simp [ConfigSpace.answers]

/-- The bit of a device with several functions. -/
theorem multifunction_iff (b : Byte) : b &&& 0x80 ≠ 0 ↔ b.getLsbD 7 = true := by
  revert b
  decide

end Reading

/-! ## The scan -/

/-- From `s` to `s'` the devices `l` have been found, as far as the table has room for them. -/
structure Finds (s s' : PciScan) (l : List PciDevice) : Prop where
  space : s'.bridge.space = s.bridge.space
  devices : ∀ xs, s.devices = xs.take pciMaxDevices → s'.devices = (xs ++ l).take pciMaxDevices

section Scan

variable {s s' s'' : PciScan} {l l' : List PciDevice} {bus device function : Byte}

theorem Finds.nothing (hspace : s'.bridge.space = s.bridge.space) (hdevices : s'.devices = s.devices) : Finds s s' [] :=
  ⟨hspace, fun xs h => by rw [hdevices, h, List.append_nil]⟩

theorem Finds.trans (h : Finds s s' l) (h' : Finds s' s'' l') : Finds s s'' (l ++ l') :=
  ⟨h'.space.trans h.space, fun xs hxs => by rw [← List.append_assoc]; exact h'.devices _ (h.devices xs hxs)⟩

/-- A loop finds what its turns find. -/
theorem Finds.foldl {α : Type} {f : PciScan → α → PciScan} {g : α → List PciDevice} {xs : List α} {space : ConfigSpace}
    (hf : ∀ s x, x ∈ xs → s.bridge.space = space → Finds s (f s x) (g x)) (hs : s.bridge.space = space) :
    Finds s (xs.foldl f s) (xs.flatMap g) := by
  induction xs generalizing s with
  | nil => exact .nothing rfl rfl
  | cons x xs ih =>
    have hx := hf s x List.mem_cons_self hs
    rw [List.foldl_cons, List.flatMap_cons]
    exact hx.trans (ih (fun s y hy => hf s y (List.mem_cons_of_mem _ hy)) (hx.space.trans hs))

theorem pciProbeFunction_finds : Finds s (pciProbeFunction s bus device function)
    (if s.bridge.space.answers bus device function then [s.bridge.space.describe bus device function] else []) := by
  simp only [pciProbeFunction, pciReadVendorId_eq, pciConfigReadDword_eq, low_half, low_byte]
  cases hanswers : s.bridge.space.answers bus device function with
  | false =>
    rw [if_pos (answers_eq_false.1 hanswers)]
    exact .nothing rfl rfl
  | true =>
    rw [if_neg fun h => by rw [answers_eq_false.2 h] at hanswers; cases hanswers]
    split
    · rename_i hfull
      refine ⟨rfl, fun xs hxs => ?_⟩
      rw [hxs, List.length_take] at hfull
      rw [if_pos rfl, List.take_append_of_le_length (by omega)]
      exact hxs
    · rename_i hroom
      refine ⟨rfl, fun xs hxs => ?_⟩
      rw [hxs, List.length_take] at hroom
      have hshort : xs.length < pciMaxDevices := by omega
      rw [if_pos rfl, List.take_of_length_le (by rw [List.length_append]; exact hshort)]
      rw [List.take_of_length_le hshort.le] at hxs
      rw [← hxs]
      rfl

theorem flatMap_answering {p : Nat → Bool} {k : Nat → PciDevice} (ns : List Nat) :
    ns.flatMap (fun n => if p n then [k n] else []) = (ns.filter p).map k := by
  induction ns with
  | nil => rfl
  | cons n ns ih =>
    rw [List.flatMap_cons, ih]
    cases hp : p n <;> simp [hp]

/-- A device with one function has no other that responds. -/
theorem responds_single {space : ConfigSpace} (hmulti : (space.headerType bus device 0).getLsbD 7 = false) :
    (List.range' 1 7).filter (fun n => space.responds bus device (BitVec.ofNat 8 n)) = [] := by
  refine List.filter_eq_nil_iff.2 fun n hn => ?_
  have hne : BitVec.ofNat 8 n ≠ 0 := by
    revert n
    decide
  simp only [ConfigSpace.responds, hmulti, decide_eq_false hne, Bool.or_false, Bool.and_false]
  exact Bool.false_ne_true

/-- With several functions, those respond that answer. -/
theorem responds_multi {space : ConfigSpace} (hanswers : space.answers bus device 0 = true)
    (hmulti : (space.headerType bus device 0).getLsbD 7 = true) :
    (List.range' 1 7).filter (fun n => space.responds bus device (BitVec.ofNat 8 n)) =
      (List.range' 1 7).filter fun n => space.answers bus device (BitVec.ofNat 8 n) := by
  refine List.filter_congr fun n _ => ?_
  rw [ConfigSpace.responds, hanswers, hmulti, Bool.or_true, Bool.and_true, Bool.true_and]

/-- All functions of a device that respond are found. -/
theorem pciProbeDevice_finds : Finds s (pciProbeDevice s bus device)
    (((List.range 8).filter fun n => s.bridge.space.responds bus device (BitVec.ofNat 8 n)).map fun n =>
      s.bridge.space.describe bus device (BitVec.ofNat 8 n)) := by
  simp only [pciProbeDevice, pciReadVendorId_eq, pciConfigReadDword_eq, low_byte]
  cases hanswers : s.bridge.space.answers bus device 0 with
  | false =>
    rw [if_pos (answers_eq_false.1 hanswers)]
    simp only [ConfigSpace.responds, hanswers, Bool.false_and, List.filter_false, List.map_nil]
    exact .nothing rfl rfl
  | true =>
    rw [if_neg fun h => by rw [answers_eq_false.2 h] at hanswers; cases hanswers]
    -- the probe of function 0 reads its vendor again, and comes before the header type
    have hfirst : Finds s
        (pciProbeFunction { s with bridge := ⟨pciAddress bus device 0 0, s.bridge.space⟩ } bus device 0)
        [s.bridge.space.describe bus device 0] := by
      have h := @pciProbeFunction_finds { s with bridge := ⟨pciAddress bus device 0 0, s.bridge.space⟩ } bus device 0
      simp only [hanswers, if_true] at h
      exact ⟨h.space, h.devices⟩
    generalize pciProbeFunction { s with bridge := ⟨pciAddress bus device 0 0, s.bridge.space⟩ } bus device 0 = s₁
      at hfirst ⊢
    have hzero : s.bridge.space.responds bus device 0 = true := by
      rw [ConfigSpace.responds, hanswers]
      rfl
    have hheader : ((s₁.bridge.space.dword bus device 0 (BitVec.extractLsb' 2 6 (0x0C : Byte))) >>> 16).setWidth 8 =
        s.bridge.space.headerType bus device 0 := by
      rw [hfirst.space]
      rfl
    rw [show List.range 8 = 0 :: List.range' 1 7 from rfl,
      List.filter_cons_of_pos (p := fun n => s.bridge.space.responds bus device (BitVec.ofNat 8 n)) hzero,
      List.map_cons]
    simp only [hheader, multifunction_iff]
    cases hmulti : (s.bridge.space.headerType bus device 0).getLsbD 7 with
    | false =>
      rw [responds_single hmulti, if_neg Bool.false_ne_true]
      exact ⟨hfirst.space, hfirst.devices⟩
    | true =>
      rw [if_pos rfl, responds_multi hanswers hmulti, ← flatMap_answering]
      have hloop := @Finds.foldl ⟨⟨pciAddress bus device 0 0x0C, s₁.bridge.space⟩, s₁.devices⟩ _
        (fun s n => pciProbeFunction s bus device (BitVec.ofNat 8 n)) (fun n =>
          if s.bridge.space.answers bus device (BitVec.ofNat 8 n) then
            [s.bridge.space.describe bus device (BitVec.ofNat 8 n)] else []) (List.range' 1 7) s.bridge.space
        (fun s' n _ hs' => by rw [← hs']; exact pciProbeFunction_finds) hfirst.space
      exact hfirst.trans ⟨hloop.space, hloop.devices⟩

end Scan

/-- Whatever the configuration space holds, after the scan the table has the functions that respond, each at
its place and once, in the order of their addresses: all of them, or the first 32. -/
theorem pciScanBus_found (h : HostBridge) :
    (pciScanBus h).devices = h.space.found.take pciMaxDevices ∧ (pciScanBus h).bridge.space = h.space := by
  have hscan : Finds ⟨h, []⟩ (pciScanBus h) ((List.range 256).flatMap fun bus => (List.range 32).flatMap fun device =>
      ((List.range 8).filter fun n =>
        h.space.responds (BitVec.ofNat 8 bus) (BitVec.ofNat 8 device) (BitVec.ofNat 8 n)).map fun n =>
          h.space.describe (BitVec.ofNat 8 bus) (BitVec.ofNat 8 device) (BitVec.ofNat 8 n)) := by
    refine Finds.foldl (fun s bus _ hs => ?_) rfl
    refine Finds.foldl (fun s device _ hs => ?_) hs
    rw [← hs]
    exact pciProbeDevice_finds
  refine ⟨?_, hscan.space⟩
  rw [hscan.devices [] rfl, List.nil_append]
  congr 1
  simp only [ConfigSpace.found, pciPlaces, List.filter_flatMap, List.map_flatMap, List.filter_map, List.map_map]
  rfl

end SpectreOS
