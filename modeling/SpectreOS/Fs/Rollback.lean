/-
What `fs_create` and `fs_delete` leave behind when a request fails. Both change the tables in memory
before they save anything. `fs_create` takes its inode back when the directory entry cannot be
written, but not when the inode itself cannot be saved; `fs_delete` takes nothing back, and does not
look at whether the entry was cleared.
-/
import SpectreOS.Fs.Bijection

namespace SpectreOS

open BlockIO Prog

section

variable {N n : Nat} {cp : Primitives} {f : Nat → Bool} {d d' : Nat → Sector} {m m' : FsMem} {name : CStr} {res : Int}

/-! ## Create -/

/-- The tables and the directory are as they were. -/
structure Untouched (d : Nat → Sector) (m : FsMem) (d' : Nat → Sector) (m' : FsMem) : Prop where
  inodes : ∀ i, m'.inode i = m.inode i
  bitmap : m'.bitmap = m.bitmap
  entries : ∀ slot < slotCount, entryAt d' slot = entryAt d slot

/-- When `fs_create` claims an inode, the inode is saved; and its entry is written, unless the inode
was blank. -/
def CreateServed (f : Nat → Bool) (n : Nat) (d : Nat → Sector) (m : FsMem) (name : CStr) : Prop :=
  ∀ slot i, Claims f n d m name slot i →
    (f (n + slotCount + slot + 1) = false ∧ f (n + slotCount + slot + 2) = false) ∧
      (f (n + slotCount + slot + 3) = false ∧ f (n + slotCount + slot + 4) = false ∨ m.inode i = .zero)

theorem Claims.unique {slot slot' i i' : Nat} (h : Claims f n d m name slot i) (h' : Claims f n d m name slot' i') :
    slot = slot' ∧ i = i' :=
  ⟨Option.some.inj (h.free.symm.trans h'.free), Option.some.inj (h.inode.symm.trans h'.inode)⟩

/-- A refusal of `fs_create` leaves no trace exactly if those requests succeed. -/
theorem CreatedAt.untouched_iff (hc : CreatedAt f n d m name res d' m') :
    (res = 0 → Untouched d m d' m') ↔ CreateServed f n d m name := by
  cases hc with
  | refused hno =>
    exact ⟨fun _ slot i hclaims => absurd hclaims (hno slot i), fun _ _ => ⟨fun _ => rfl, rfl, fun _ _ => rfl⟩⟩
  | unsaved slot i hclaims hfail =>
    obtain ⟨-, hfree, hlt⟩ := firstFreeInode_some hclaims.inode
    constructor
    · intro h
      have hsame := (h rfl).inodes i
      rw [inode_setInode, if_pos ⟨rfl, hlt⟩] at hsame
      rw [← hsame] at hfree
      cases hfree
    · intro h
      exact absurd (h slot i hclaims).1 hfail
  | undone slot i d' hclaims hsaved hfail hd =>
    obtain ⟨-, -, hlt⟩ := firstFreeInode_some hclaims.inode
    constructor
    · intro h slot' i' hclaims'
      obtain ⟨rfl, rfl⟩ := hclaims.unique hclaims'
      have hsame := (h rfl).inodes i
      rw [inode_setInode, if_pos ⟨rfl, hlt⟩] at hsame
      exact ⟨hsaved, .inr hsame.symm⟩
    · intro h _
      have hzero := (h slot i hclaims).2.resolve_left hfail
      refine ⟨fun j => ?_, rfl, fun j _ => entryAt_congr (hd _ (by omega))⟩
      rw [inode_setInode]
      split
      · rename_i hj
        rw [hj.1, hzero]
      · rfl
  | done slot i hclaims hsaved hwritten =>
    refine ⟨fun _ slot' i' hclaims' => ?_, fun _ h => absurd h (by decide)⟩
    obtain ⟨rfl, rfl⟩ := hclaims.unique hclaims'
    exact ⟨hsaved, .inl hwritten⟩

/-- In every state a run of calls leads to, whatever has failed so far: if `fs_create` returns 0, the
tables and the directory are as before, exactly if the requests that save a claimed inode succeed. -/
theorem fsCreate_untouched_iff {s₀ : Conf FsMem Machine} {a : Files} (h : Reached cp N s₀ a) (f : Nat → Bool)
    (calls : List Call) (name : CStr) :
    let s := (runCalls (fsDisk cp) calls (withFaults s₀ f)).2
    let r := (fsCreate name).run (fsDisk cp) s
    (r.1 = 0 → Untouched (logicalDisk cp s.dev) s.mem (logicalDisk cp r.2.dev) r.2.mem) ↔
      CreateServed s.dev.ata.faults (requests s) (logicalDisk cp s.dev) s.mem name :=
  ((h.live_calls f calls).create_counted name).untouched_iff

/-! ## Delete -/

/-- An inode that is blank already is released without a trace. -/
theorem releaseInode_zero {i : Nat} (h : m.inode i = .zero) :
    (∀ j, (releaseInode m i).inode j = m.inode j) ∧ (releaseInode m i).bitmap = m.bitmap := by
  have hfreed : (List.finRange 32).foldl
      (fun m' k => if (m.inode i).direct k ≠ 0 then freeSector m' ((m.inode i).direct k) else m') m = m := by
    rw [h]
    generalize List.finRange 32 = l
    induction l with
    | nil => rfl
    | cons k l ih => exact ih
  unfold releaseInode
  simp only [hfreed]
  refine ⟨fun j => ?_, rfl⟩
  rw [inode_setInode]
  split
  · rename_i hj
    rw [hj.1, h]
    rfl
  · rfl

/-- If `fs_delete` reads an entry of the name, then it saves the bitmap and the inode, the entry is the
only one of the name and the first its second scan reads with that inode, and it is cleared; or a save
fails and the inode was blank already. -/
def DeleteServed (f : Nat → Bool) (n : Nat) (d : Nat → Sector) (m : FsMem) (name : CStr) : Prop :=
  m.filesystemReady = true → validName name = true → ∀ k, firstServed f n (named d name) = some k →
    ((∀ q < 34, f (n + k + 1 + q) = false) ∧ (∀ j < slotCount, (entryAt d j).hasName name → j = k) ∧
      firstServed f (n + k + 35) (refersTo d (entryAt d k).inode) = some k ∧
      f (n + k + 35 + k + 1) = false ∧ f (n + k + 35 + k + 2) = false) ∨
    (∃ q < 34, f (n + k + 1 + q) = true) ∧ m.inode (entryAt d k).inode = .zero

/-- The directory has no entry of the name. -/
def Absent (d : Nat → Sector) (name : CStr) : Prop := ∀ j < slotCount, ¬ (entryAt d j).hasName name

/-- After the clearing loop the name is absent exactly if its only entry was cleared. -/
theorem clearedAt_absent {k : Nat} (hk : k < slotCount) (hname : (entryAt d k).hasName name) :
    Absent (clearedAt f n d (entryAt d k).inode) name ↔
      (∀ j < slotCount, (entryAt d j).hasName name → j = k) ∧
        firstServed f n (refersTo d (entryAt d k).inode) = some k ∧ f (n + k + 1) = false ∧ f (n + k + 2) = false := by
  unfold clearedAt
  cases hfirst : firstServed f n (refersTo d (entryAt d k).inode) with
  | none => exact ⟨fun h => absurd hname (h k hk), nofun⟩
  | some k' =>
    dsimp only
    split
    · rename_i hserved
      have hnew : entryAt (withEntry d k' .zero) k' = .zero :=
        entryAt_withEntry _ k' (by simp [Dirent.zero]) (by simp [Dirent.zero])
      constructor
      · intro h
        -- an entry that was not cleared would still have the name
        have hother : ∀ j < slotCount, (entryAt d j).hasName name → j = k' := by
          intro j hj hn
          by_contra hne
          exact h j hj (by rw [entryAt_withEntry_of_ne _ hne]; exact hn)
        obtain rfl := hother k hk hname
        exact ⟨hother, rfl, hserved⟩
      · rintro ⟨honly, heq, -⟩ j hj hn
        obtain rfl : k' = k := Option.some.inj heq
        by_cases hne : j = k'
        · rw [hne, hnew] at hn
          exact hn.1 rfl
        · rw [entryAt_withEntry_of_ne _ hne] at hn
          exact hne (honly j hj hn)
    · rename_i hserved
      refine ⟨fun h => absurd hname (h k hk), ?_⟩
      rintro ⟨-, heq, hboth⟩
      obtain rfl : k' = k := Option.some.inj heq
      exact absurd hboth hserved

/-- The files and tables are as they were. -/
structure Intact (d : Nat → Sector) (m : FsMem) (d' : Nat → Sector) (m' : FsMem) (name : CStr) : Prop where
  file : fileBytes d' m' name = fileBytes d m name
  inodes : ∀ i, m'.inode i = m.inode i
  bitmap : m'.bitmap = m.bitmap

theorem unsaved_intact {k : Nat} (hS : Sound N d m) (hk : k < slotCount) (hu : (entryAt d k).used ≠ 0)
    (hd : ∀ l, ¬ (1 ≤ l ∧ l < 97) → d' l = d l) :
    Intact d m d' (releaseInode m (entryAt d k).inode) name ↔ m.inode (entryAt d k).inode = .zero := by
  obtain ⟨hlo, hhi⟩ := hS.entries k hk hu
  constructor
  · intro h
    have hsame := h.inodes (entryAt d k).inode
    rw [(releaseInode_spec m _ hS.owned.totalHi).1, if_pos ⟨rfl, hhi⟩] at hsame
    have hres : (m.inode (entryAt d k).inode).reserved = fun _ => 0 := funext fun q => hS.reserved _ q
    rw [← hsame]
    simp only [Inode.zero, hres]
  · intro h
    obtain ⟨hinodes, hbitmap⟩ := releaseInode_zero h
    refine ⟨?_, hinodes, hbitmap⟩
    have hlook : lookup d' name = lookup d name := lookup_congr fun j hj => entryAt_congr (hd _ (by omega))
    unfold fileBytes
    rw [hlook]
    congr 1
    funext i
    have hsame : SameFile d m d' (releaseInode m (entryAt d k).inode) i := by
      refine SameFile.of_sectors (fun q hq => hd _ ?_) (hinodes i)
      have := (hS.owned.range i q hq).1
      omega
    rw [hsame.1]
    exact (hinodes i ▸ hsame.bytesFrom 0 _ :)

/-- A refusal of `fs_delete` keeps the file and the tables and a success removes the name, exactly if
those requests succeed. -/
theorem DeletedAt.intact_iff (hS : Sound N d m) (hc : DeletedAt f n d m name res d' m') :
    (res = 0 → Intact d m d' m' name) ∧ (res = 1 → Absent d' name) ↔ DeleteServed f n d m name := by
  cases hc with
  | refused hno =>
    refine ⟨fun _ h1 h2 k hk => ?_, fun _ => ⟨fun _ => ⟨rfl, fun _ => rfl, rfl⟩, fun h => absurd h (by decide)⟩⟩
    rw [hno h1 h2] at hk
    cases hk
  | unsaved k d' h1 h2 hfound hfail hd =>
    obtain ⟨hk, hn, -⟩ := firstServed_some hfound
    have hintact := @unsaved_intact N d d' m name k hS hk (of_decide_eq_true hn).1 hd
    constructor
    · rintro ⟨h, -⟩ _ _ k' hk'
      obtain rfl : k = k' := Option.some.inj (hfound.symm.trans hk')
      exact .inr ⟨hfail, hintact.1 (h rfl)⟩
    · intro h
      refine ⟨fun _ => hintact.2 ?_, fun h => absurd h (by decide)⟩
      rcases h h1 h2 k hfound with ⟨hall, -⟩ | ⟨-, hzero⟩
      · obtain ⟨q, hq, hf⟩ := hfail
        rw [hall q hq] at hf
        cases hf
      · exact hzero
  | saved k d' h1 h2 hfound hsaves hd =>
    obtain ⟨hk, hn, -⟩ := firstServed_some hfound
    have hentry : ∀ j, entryAt d' j = entryAt d j := fun j => entryAt_congr (hd _ (by omega))
    have habsent := @clearedAt_absent (n + k + 35) f d' name k hk (by rw [hentry]; exact of_decide_eq_true hn)
    have hrefers : refersTo d' (entryAt d k).inode = refersTo d (entryAt d k).inode := by
      funext j
      rw [refersTo, hentry]
      rfl
    simp only [hentry, hrefers] at habsent
    constructor
    · rintro ⟨-, h⟩ _ _ k' hk'
      obtain rfl : k = k' := Option.some.inj (hfound.symm.trans hk')
      exact .inl ⟨hsaves, habsent.1 (h rfl)⟩
    · intro h
      refine ⟨fun h => absurd h (by decide), fun _ => habsent.2 ?_⟩
      rcases h h1 h2 k hfound with ⟨-, hrest⟩ | ⟨⟨q, hq, hf⟩, -⟩
      · exact hrest
      · rw [hsaves q hq] at hf
        cases hf

/-- `fs_exists` once nothing fails any more. -/
theorem Live.exists_healthy {r w : Bool} {s : Conf FsMem Machine} (h : Live cp N r w s) (name : CStr)
    (hready : s.mem.filesystemReady = true) (hvalid : validName name = true) :
    ((fsExists name).run (fsDisk cp) (SpectreOS.withFaults s fun _ => false)).1 = 0 ↔
    Absent (logicalDisk cp s.dev) name := by
  obtain ⟨⟨-, -, hres⟩, -⟩ := h.healed.exec (fsExists_exact h.healed.sound name) fun _ _ _ hq => by
    obtain ⟨rfl, rfl, -⟩ := hq
    exact h.sound
  rw [hres rfl]
  constructor
  · intro h0 j hj hn
    rw [if_pos ⟨hready, hvalid, j, hj, hn⟩] at h0
    cases h0
  · intro h
    rw [if_neg]
    rintro ⟨-, -, j, hj, hn⟩
    exact h j hj hn

theorem DeletedAt.done_ready (hS : Sound N d m) (hc : DeletedAt f n d m name 1 d' m') :
    m'.filesystemReady = true ∧ validName name = true := by
  cases hc with
  | saved k d' h1 h2 => exact ⟨by rw [(releaseInode_spec m _ hS.owned.totalHi).2.2.2.1]; exact h1, h2⟩

/-- In every state a run of calls leads to, whatever has failed so far: a refused `fs_delete` keeps the
file and the tables, and after a successful one `fs_exists` does not find the name, exactly if those
requests succeed. -/
theorem fsDelete_intact_iff {s₀ : Conf FsMem Machine} {a : Files} (h : Reached cp N s₀ a) (f : Nat → Bool)
    (calls : List Call) (name : CStr) :
    let s := (runCalls (fsDisk cp) calls (withFaults s₀ f)).2
    let r := (fsDelete name).run (fsDisk cp) s
    (r.1 = 0 → Intact (logicalDisk cp s.dev) s.mem (logicalDisk cp r.2.dev) r.2.mem name) ∧
        (r.1 = 1 → ((fsExists name).run (fsDisk cp) (withFaults r.2 fun _ => false)).1 = 0) ↔
      DeleteServed s.dev.ata.faults (requests s) (logicalDisk cp s.dev) s.mem name := by
  intro s r
  have hlive := h.live_calls f calls
  have hc := hlive.delete_counted name
  have hafter : Live cp N true true r.2 := by
    have := (hlive.call (.delete name)).2
    rwa [Call.delete_run] at this
  rw [← hc.intact_iff hlive.sound]
  refine and_congr Iff.rfl (forall_congr' fun hone => ?_)
  have hone : r.1 = 1 := hone
  have hc : DeletedAt _ _ _ _ name r.1 (logicalDisk cp r.2.dev) r.2.mem := hc
  rw [hone] at hc
  obtain ⟨hready, hvalid⟩ := hc.done_ready hlive.sound
  exact hafter.exists_healthy name hready hvalid

/-! ## On a disk of 200 sectors -/

/-- Where nothing fails, a refused `fs_create` leaves no trace. -/
theorem fsCreate_untouched_boot :
    ∃ s₀, fsFormat (current nullPrimitives) (fun _ => 0) (bootConf (blankDrive 200)) = (true, s₀) ∧
      let s := (runCalls (fsDisk nullPrimitives) [.create nameA] s₀).2
      let r := (fsCreate nameA).run (fsDisk nullPrimitives) s
      r.1 = 0 → Untouched (logicalDisk nullPrimitives s.dev) s.mem (logicalDisk nullPrimitives r.2.dev) r.2.mem := by
  obtain ⟨s₀, hs₀, hreach⟩ := reached_boot nullPrimitives
  refine ⟨s₀, hs₀, ?_⟩
  obtain ⟨-, hrun⟩ := hreach.running.calls [.create nameA] ⟨trivial, trivial⟩
  have hf := Live.faultless hrun.live
  exact (fsCreate_untouched_iff hreach s₀.dev.ata.faults [.create nameA] nameA).2 fun slot i _ =>
    ⟨⟨hf _, hf _⟩, .inl ⟨hf _, hf _⟩⟩

/-- On an empty disk, the first request after the scans of `fs_create` fails: the inode stays claimed. -/
theorem Vacant.create_fails {r w : Bool} {s : Conf FsMem Machine} (hv : Vacant (logicalDisk cp s.dev) s.mem)
    (hlive : Live cp N r w s) (hn : validName name = true)
    (h0 : ∀ k < requests s + slotCount + 1, f k = false) (h1 : f (requests s + slotCount + 1) = true) :
    ((fsCreate name).run (fsDisk cp) (withFaults s f)).1 = 0 ∧
      ((fsCreate name).run (fsDisk cp) (withFaults s f)).2.mem = setInode s.mem 1 .fresh := by
  have hc : CreatedAt f (requests s) (logicalDisk cp s.dev) s.mem name
      ((fsCreate name).run (fsDisk cp) (withFaults s f)).1 _ ((fsCreate name).run (fsDisk cp) (withFaults s f)).2.mem :=
    (hlive.withFaults f).create_counted name
  have hclaims : Claims f (requests s) (logicalDisk cp s.dev) s.mem name 0 1 := by
    refine ⟨hv.ready, hn, firstServed_none.2 fun j hj hname => ?_, ?_, hv.firstFreeInode⟩
    · exact absurd (hv.entries j hj) (of_decide_eq_true hname).1
    · rw [firstServed, List.find?_range_eq_some]
      refine ⟨?_, by simp, by simp⟩
      simp only [unused, hv.entries 0 (by simp), h0 (requests s + slotCount + 0) (by omega)]
      rfl
  generalize ((fsCreate name).run (fsDisk cp) (withFaults s f)).1 = res at hc ⊢
  generalize ((fsCreate name).run (fsDisk cp) (withFaults s f)).2.mem = m' at hc ⊢
  generalize logicalDisk cp ((fsCreate name).run (fsDisk cp) (withFaults s f)).2.dev = d' at hc
  have hfail : ∀ {slot i : Nat}, Claims f (requests s) (logicalDisk cp s.dev) s.mem name slot i →
      f (requests s + slotCount + slot + 1) ≠ false := by
    intro slot i hclaims'
    obtain ⟨rfl, rfl⟩ := hclaims.unique hclaims'
    rw [Nat.add_zero, h1]
    decide
  cases hc with
  | refused hno => exact absurd hclaims (hno 0 1)
  | unsaved slot i hclaims' =>
    obtain ⟨rfl, rfl⟩ := hclaims.unique hclaims'
    exact ⟨rfl, rfl⟩
  | undone slot i d' hclaims' hsaved => exact absurd hsaved.1 (hfail hclaims')
  | done slot i hclaims' hsaved => exact absurd hsaved.1 (hfail hclaims')

theorem Vacant.create_leaks {r w : Bool} {s : Conf FsMem Machine} (hlive : Live cp N r w s)
    (hv : Vacant (logicalDisk cp s.dev) s.mem) (hn : validName name = true)
    (h0 : ∀ k < requests s + slotCount + 1, f k = false) (h1 : f (requests s + slotCount + 1) = true) :
    let r := (fsCreate name).run (fsDisk cp) (withFaults s f)
    r.1 = 0 ∧ ¬ Untouched (logicalDisk cp (withFaults s f).dev) (withFaults s f).mem
      (logicalDisk cp r.2.dev) r.2.mem := by
  obtain ⟨hres, hmem⟩ := hv.create_fails hlive hn h0 h1
  refine ⟨hres, fun hu => ?_⟩
  have hsame := hu.inodes 1
  rw [hmem, inode_setInode, if_pos ⟨rfl, by omega⟩] at hsame
  have hzero : Inode.fresh = .zero := hsame.trans (hv.inodes 1 (by omega))
  exact absurd (congrArg Inode.mode hzero) (by decide)

/-- `fs_create` returns 0 and an inode is in use that no entry names. -/
theorem fsCreate_leaks_boot :
    ∃ f s, fsFormat (current nullPrimitives) (fun _ => 0) (withFaults (bootConf (blankDrive 200)) f) = (true, s) ∧
      let r := (fsCreate nameA).run (fsDisk nullPrimitives) s
      r.1 = 0 ∧ ¬ Untouched (logicalDisk nullPrimitives s.dev) s.mem (logicalDisk nullPrimitives r.2.dev) r.2.mem := by
  have h := fsFormat_boot nullPrimitives (fun _ => 0) (a := blankDrive 200) rfl (by decide) fun _ => rfl
  obtain ⟨hlive, hfresh⟩ := @fsFormat_live nullPrimitives _ 200 false false _ (Registry.boot _)
    (.inr fun _ => rfl) h rfl
  obtain ⟨f, hf⟩ : ∃ f : Nat → Bool, ∀ n, f n = decide (n =
    requests (fsFormat (current nullPrimitives) (fun _ => 0) (bootConf (blankDrive 200))).2 + slotCount + 1) :=
    ⟨_, fun _ => rfl⟩
  have hformat := fsFormat_withFaults (f := f) h fun n _ hn => by
    rw [hf, decide_eq_false (by omega)]
    rfl
  exact ⟨f, _, hformat, Vacant.create_leaks (f := f) hlive hfresh.vacant (by decide)
    (fun k hk => by rw [hf, decide_eq_false (by omega)]) (by rw [hf, decide_eq_true rfl])⟩

theorem OnlyFile.deleteServed {s : Conf FsMem Machine} {slot : Nat} (h : OnlyFile s slot)
    (hf : ∀ n, s.dev.ata.faults n = false) :
    DeleteServed s.dev.ata.faults (requests s) (logicalDisk nullPrimitives s.dev) s.mem nameA := by
  intro _ _ k hfound
  obtain ⟨hk, hn, -⟩ := firstServed_some hfound
  have honly : ∀ j < slotCount, (entryAt (logicalDisk nullPrimitives s.dev) j).used ≠ 0 → j = k := by
    intro j hj hu
    have h1 : j = slot := by
      by_contra hne
      exact hu (h.others j hj hne)
    have h2 : k = slot := by
      by_contra hne
      exact (of_decide_eq_true hn).1 (h.others k hk hne)
    rw [h1, h2]
  refine .inl ⟨fun q _ => hf _, fun j hj hn => honly j hj hn.1, ?_, hf _, hf _⟩
  rw [firstServed_unique hk, if_neg (by rw [hf]; simp)]
  · exact decide_eq_true ⟨(of_decide_eq_true hn).1, rfl⟩
  · exact fun j hj href => honly j hj (of_decide_eq_true href).1

/-- Where nothing fails, `fs_delete` removes the file. -/
theorem fsDelete_intact_boot :
    ∃ s₀, fsFormat (current nullPrimitives) (fun _ => 0) (bootConf (blankDrive 200)) = (true, s₀) ∧
      let s := (runCalls (fsDisk nullPrimitives) [.create nameA] s₀).2
      let r := (fsDelete nameA).run (fsDisk nullPrimitives) s
      (r.1 = 0 → Intact (logicalDisk nullPrimitives s.dev) s.mem (logicalDisk nullPrimitives r.2.dev) r.2.mem nameA) ∧
        (r.1 = 1 → ((fsExists nameA).run (fsDisk nullPrimitives) (withFaults r.2 fun _ => false)).1 = 0) := by
  have h := fsFormat_boot nullPrimitives (fun _ => 0) (a := blankDrive 200) rfl (by decide) fun _ => rfl
  obtain ⟨hlive, hfresh⟩ := @fsFormat_live nullPrimitives _ 200 false false _ (Registry.boot _)
    (.inr fun _ => rfl) h rfl
  have hreach : Reached nullPrimitives 200 _ (Files.empty 71) :=
    .format (fun _ => 0) (bootConf (blankDrive 200)) (Registry.boot _) (fun _ => rfl) rfl h
  obtain ⟨s₀, hs₀⟩ : ∃ s₀, s₀ = (fsFormat (current nullPrimitives) (fun _ => 0) (bootConf (blankDrive 200))).2 :=
    ⟨_, rfl⟩
  rw [← hs₀] at hlive hfresh hreach
  refine ⟨s₀, Prod.ext h hs₀.symm, ?_⟩
  obtain ⟨slot, honly⟩ := Fresh.onlyFile hlive hfresh
  obtain ⟨-, hrun⟩ := hreach.running.calls [.create nameA] ⟨trivial, trivial⟩
  exact (fsDelete_intact_iff hreach s₀.dev.ata.faults [.create nameA] nameA).2
    (honly.deleteServed (Live.faultless hrun.live))

/-- `fs_delete` returns 0 and the file has lost its inode. -/
theorem fsDelete_damages_boot :
    ∃ f s₀, fsFormat (current nullPrimitives) (fun _ => 0) (withFaults (bootConf (blankDrive 200)) f) = (true, s₀) ∧
      let s := (runCalls (fsDisk nullPrimitives) [.create nameA] s₀).2
      let r := (fsDelete nameA).run (fsDisk nullPrimitives) s
      lookup (logicalDisk nullPrimitives s.dev) nameA = some 1 ∧ r.1 = 0 ∧
        ¬ Intact (logicalDisk nullPrimitives s.dev) s.mem (logicalDisk nullPrimitives r.2.dev) r.2.mem nameA := by
  obtain ⟨s, slot, honly, hhistory⟩ := onlyFile_boot
  obtain ⟨f, hf⟩ : ∃ f : Nat → Bool, ∀ n, f n = decide (n = requests s + slot + 1) := ⟨_, fun _ => rfl⟩
  obtain ⟨s₀, hformat, hcreate⟩ := hhistory f fun n hn => by
    rw [hf, decide_eq_false (by omega)]
  obtain ⟨hres, hmem, -⟩ := honly.delete_fails (f := f) (by rw [hf, decide_eq_false (by omega)])
    (by rw [hf, decide_eq_true rfl])
  refine ⟨f, s₀, hformat, ?_⟩
  rw [hcreate]
  refine ⟨?_, hres, fun hi => ?_⟩
  · refine lookup_eq_some.2 ⟨slot, honly.slot_lt, honly.hasName, fun j hj hn => ?_, by
      show (entryAt (logicalDisk nullPrimitives s.dev) slot).inode = 1
      rw [honly.entry]
      rfl⟩
    have := honly.slot_lt
    exact hn.1 (honly.others j (by omega) (by omega))
  · have hsame := hi.inodes 1
    rw [hmem, (releaseInode_spec _ _ honly.live.sound.owned.totalHi).1, if_pos ⟨rfl, by omega⟩] at hsame
    have hmode : fsModeFree = (s.mem.inode 1).mode := congrArg Inode.mode hsame
    rw [honly.inode] at hmode
    exact absurd hmode (by decide)

end

end SpectreOS
