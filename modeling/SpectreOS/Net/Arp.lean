/-
The ARP cache over a whole history of received packets: no two entries in use share an address, so
a lookup is the entry of the address, and learning changes the lookup of no other address except
by evicting it.
-/
import SpectreOS.Lib.Slots
import SpectreOS.Net.Stack

namespace SpectreOS

open BlockIO

/-! ## The history -/

/-- `arp_init`. -/
def arpInit (net : Net) : Net := { net with cache := fun i => { net.cache i with inUse := false } }

/-- What an ARP payload announces, when it is accepted: long enough, for IPv4 over Ethernet. -/
def announcement (payload : List Byte) : Option (Ip × Mac) :=
  if payload.length < arpHeaderLen ∨ netRead16 payload 0 ≠ some 1 ∨ netRead16 payload 2 ≠ some 0x0800 then none
  else do
    let ip ← netRead32 payload 14
    let mac ← readMac payload 8
    return (ip, mac)

/-- The address in the most recent accepted packet from an IP. -/
def latestMac (payloads : List (List Byte)) (ip : Ip) : Option Mac :=
  ((payloads.filterMap announcement).reverse.find? fun a => a.1 == ip).map Prod.snd

/-- Received payloads handled in turn. -/
def arpRun (net : Net) (payloads : List (List Byte)) : Option Net :=
  payloads.foldlM (fun net payload => arpHandlePacket net payload payload.length) net

theorem latestMac_append (payloads : List (List Byte)) (payload : List Byte) (ip : Ip) :
    latestMac (payloads ++ [payload]) ip =
      match announcement payload with
      | none => latestMac payloads ip
      | some a => if a.1 = ip then some a.2 else latestMac payloads ip := by
  unfold latestMac
  rw [List.filterMap_append, List.reverse_append]
  cases h : announcement payload with
  | none => simp [h]
  | some a =>
    simp only [List.filterMap_cons, List.filterMap_nil, h, List.reverse_cons, List.reverse_nil, List.nil_append,
      List.singleton_append, List.find?_cons]
    by_cases ha : a.1 = ip
    · simp [ha]
    · have hb : (a.1 == ip) = false := by simpa using ha
      simp [hb, ha]

/-! ## The cache -/

def cacheSlots : Slots ArpEntry Ip Mac where
  used e := e.inUse
  key e := e.ip
  value e := e.mac

/-- No two entries in use share an address. -/
def UniqueIps (cache : Fin 8 → ArpEntry) : Prop :=
  ∀ i j, (cache i).inUse = true → (cache j).inUse = true → (cache i).ip = (cache j).ip → i = j

theorem arpResolve_eq_some {net : Net} (hu : UniqueIps net.cache) {ip : Ip} {mac : Mac} :
    arpResolve net ip = some mac ↔
      ∃ i, (net.cache i).inUse = true ∧ (net.cache i).ip = ip ∧ (net.cache i).mac = mac := by
  unfold arpResolve
  rw [Option.map_eq_some_iff]
  constructor
  · rintro ⟨i, hi, hmac⟩
    obtain ⟨hin, hip⟩ := cacheSlots.used_of_find hi
    exact ⟨i, hin, hip, hmac⟩
  · rintro ⟨i, hin, hip, hmac⟩
    exact ⟨i, (cacheSlots.find_eq_some hu).2 ⟨hin, hip⟩, hmac⟩

/-- Learning sets one entry, and no other entry in use has the address. -/
theorem cacheLearn_cache {net : Net} (hu : UniqueIps net.cache) (ip : Ip) (mac : Mac) :
    ∃ slot, (cacheLearn net ip mac).cache = Function.update net.cache slot ⟨ip, mac, true⟩ ∧
      ∀ i, i ≠ slot → (net.cache i).inUse = true → (net.cache i).ip ≠ ip := by
  unfold cacheLearn
  cases hf : (List.finRange 8).find? fun i => (net.cache i).inUse && (net.cache i).ip == ip with
  | some i =>
    obtain ⟨hi, hip⟩ := cacheSlots.used_of_find hf
    simp only [cacheSlots] at hi hip
    refine ⟨i, ?_, fun j hj hin hjip => hj (hu j i hin hi (hjip.trans hip.symm))⟩
    simp only [← hi, ← hip]
  | none => exact ⟨_, rfl, fun j _ => cacheSlots.find_eq_none.1 hf j⟩

section

variable {net learnt : Net} {ip : Ip} {mac : Mac}

/-- After learning, the address is known, and what is known of others was known before. -/
theorem cacheLearn_resolve (hu : UniqueIps net.cache) (hl : learnt.cache = (cacheLearn net ip mac).cache) :
    UniqueIps learnt.cache ∧ arpResolve learnt ip = some mac ∧
      ∀ other m, other ≠ ip → arpResolve learnt other = some m → arpResolve net other = some m := by
  obtain ⟨slot, hcache, hslot⟩ := cacheLearn_cache hu ip mac
  rw [hcache] at hl
  have hu' : UniqueIps learnt.cache := by
    rw [hl]
    exact Slots.Unique.update cacheSlots (s := ⟨ip, mac, true⟩) hslot hu
  refine ⟨hu', ?_, fun other m hne h => ?_⟩
  · rw [arpResolve_eq_some hu', hl]
    exact ⟨slot, by rw [Function.update_self], by rw [Function.update_self], by rw [Function.update_self]⟩
  · rw [arpResolve_eq_some hu', hl] at h
    obtain ⟨i, hin, hip, hmac⟩ := h
    have his : i ≠ slot := by
      rintro rfl
      rw [Function.update_self] at hip
      exact hne hip.symm
    rw [Function.update_of_ne his] at hin hip hmac
    exact (arpResolve_eq_some hu).mpr ⟨i, hin, hip, hmac⟩

end

/-! ## Runs -/

theorem ethSend_cache (net : Net) (dest : Mac) (ethertype : Word16) (payload : List Byte) :
    (ethSend net dest ethertype payload).2.cache = net.cache := by
  unfold ethSend
  cases net.nic with
  | none => rfl
  | some nic =>
    simp only
    split <;> rfl

/-- A payload is handled without a read outside it; it teaches the cache what it announces. -/
theorem arpHandlePacket_cache (net : Net) (payload : List Byte) :
    ∃ after, arpHandlePacket net payload payload.length = some after ∧
      after.cache = match announcement payload with
        | none => net.cache
        | some a => (cacheLearn net a.1 a.2).cache := by
  unfold arpHandlePacket announcement
  by_cases hlen : payload.length < arpHeaderLen
  · exact ⟨net, by rw [if_pos hlen], by rw [if_pos (.inl hlen)]⟩
  · rw [if_neg hlen]
    have hread : ∀ off, off + 2 ≤ arpHeaderLen → ∃ v, netRead16 payload off = some v := by
      intro off hoff
      unfold netRead16
      rw [List.getElem?_eq_getElem (by omega), List.getElem?_eq_getElem (by omega)]
      exact ⟨_, rfl⟩
    have hread32 : ∀ off, off + 4 ≤ arpHeaderLen → ∃ v, netRead32 payload off = some v := by
      intro off hoff
      unfold netRead32
      rw [List.getElem?_eq_getElem (by omega), List.getElem?_eq_getElem (by omega),
        List.getElem?_eq_getElem (by omega), List.getElem?_eq_getElem (by omega)]
      exact ⟨_, rfl⟩
    obtain ⟨htype, h0⟩ := hread 0 (by decide)
    obtain ⟨ptype, h2⟩ := hread 2 (by decide)
    obtain ⟨opcode, h6⟩ := hread 6 (by decide)
    obtain ⟨senderIp, h14⟩ := hread32 14 (by decide)
    obtain ⟨targetIp, h24⟩ := hread32 24 (by decide)
    obtain ⟨senderMac, h8⟩ : ∃ mac, readMac payload 8 = some mac := by
      unfold readMac
      rw [dif_pos (by simp only [arpHeaderLen] at hlen; omega)]
      exact ⟨_, rfl⟩
    simp only [h0, h2, h6, h8, h14, h24, Option.bind_eq_bind, Option.bind_some, ne_eq, Option.some.injEq, pure]
    by_cases hacc : ¬htype = 1 ∨ ¬ptype = 0x0800
    · exact ⟨net, by rw [if_pos hacc], by rw [if_pos (.inr hacc)]⟩
    · rw [if_neg hacc, if_neg (not_or.mpr ⟨hlen, hacc⟩)]
      split
      · exact ⟨_, rfl, ethSend_cache ..⟩
      · exact ⟨_, rfl, rfl⟩

/-- The cache and the history: what is in it is the latest word on each address. -/
structure Current (net : Net) (payloads : List (List Byte)) : Prop where
  unique : UniqueIps net.cache
  latest : ∀ ip mac, arpResolve net ip = some mac → latestMac payloads ip = some mac

theorem arpInit_current (net : Net) : Current (arpInit net) [] := by
  have hu : UniqueIps (arpInit net).cache := fun i j hi => by cases hi
  constructor
  · exact hu
  · intro ip mac h
    obtain ⟨i, hi, -⟩ := (arpResolve_eq_some hu).mp h
    cases hi

/-- One payload keeps the cache current, and is answered by it when it was accepted. -/
theorem Current.step {net : Net} {payloads : List (List Byte)} (h : Current net payloads) (payload : List Byte) :
    ∃ after, arpHandlePacket net payload payload.length = some after ∧ Current after (payloads ++ [payload]) ∧
      ∀ ip mac, announcement payload = some (ip, mac) → arpResolve after ip = some mac := by
  obtain ⟨after, hafter, hcache⟩ := arpHandlePacket_cache net payload
  refine ⟨after, hafter, ?_⟩
  cases ha : announcement payload with
  | none =>
    simp only [ha] at hcache
    have hsame : ∀ ip, arpResolve after ip = arpResolve net ip := fun ip => by unfold arpResolve; rw [hcache]
    refine ⟨⟨hcache ▸ h.unique, fun ip mac hr => ?_⟩, fun ip mac hno => by cases hno⟩
    rw [latestMac_append, ha]
    exact h.latest ip mac (hsame ip ▸ hr)
  | some a =>
    obtain ⟨ip, mac⟩ := a
    simp only [ha] at hcache
    obtain ⟨hu, hself, hothers⟩ := cacheLearn_resolve h.unique hcache
    refine ⟨⟨hu, fun other m hr => ?_⟩, fun ip' mac' heq => by cases heq; exact hself⟩
    rw [latestMac_append, ha]
    simp only
    by_cases hip : ip = other
    · subst hip
      rw [hself] at hr
      rw [if_pos rfl, hr]
    · rw [if_neg hip]
      exact h.latest other m (hothers other m (Ne.symm hip) hr)

theorem Current.run {net : Net} {past : List (List Byte)} (h : Current net past) (payloads : List (List Byte)) :
    ∃ after, arpRun net payloads = some after ∧ Current after (past ++ payloads) ∧
      ∀ before last ip mac, payloads = before ++ [last] → announcement last = some (ip, mac) →
        arpResolve after ip = some mac := by
  induction payloads generalizing net past with
  | nil => exact ⟨net, rfl, by rwa [List.append_nil], fun before last ip mac hno => by simp at hno⟩
  | cons payload rest ih =>
    obtain ⟨mid, hmid, hcur, hself⟩ := h.step payload
    obtain ⟨after, hrun, hafter, hlast⟩ := ih hcur
    refine ⟨after, ?_, by rwa [List.append_assoc, List.singleton_append] at hafter, ?_⟩
    · unfold arpRun at hrun ⊢
      rw [List.foldlM_cons, hmid]
      exact hrun
    · intro before last ip mac heq hann
      cases before with
      | nil =>
        obtain ⟨rfl, rfl⟩ := List.cons.inj heq
        cases hrun
        exact hself ip mac hann
      | cons b before =>
        obtain ⟨rfl, hrest⟩ := List.cons.inj heq
        exact hlast before last ip mac hrest hann

/-- From `arp_init`, after any payloads: no two entries in use share an address, the last payload is
answered if it was accepted, and every answer is that of the most recent accepted packet from the
address. -/
theorem arp_never_stale (net : Net) (payloads : List (List Byte)) :
    ∃ after, arpRun (arpInit net) payloads = some after ∧ UniqueIps after.cache ∧
      (∀ before last ip mac, payloads = before ++ [last] → announcement last = some (ip, mac) →
        arpResolve after ip = some mac) ∧
      ∀ ip mac, arpResolve after ip = some mac → latestMac payloads ip = some mac := by
  obtain ⟨after, hrun, hcur, hlast⟩ := (arpInit_current net).run payloads
  exact ⟨after, hrun, hcur.unique, hlast, hcur.latest⟩

end SpectreOS
