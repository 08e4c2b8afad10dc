import Strk20.Indexer.Ingest

/-!
# Attribution of missing slots to blocks (`trie_walk.rs`)

A missing slot is bisected to the block it first turns non-zero at, and that
block's state update claims every pending slot it names. What the loop checks
is that something was claimed, not that the bisected slot was. The answers come
from an endpoint that may say anything at any moment.

- `attributeToBlocks`: the loop, with the updates it has read on record.
- `attributed_iff`: when no slot is dropped.
-/

namespace Strk20.Indexer.Attribute

open Feed Result

/-- The endpoints as the attribution asks them: moment, slot and block. -/
structure StorageClient where
  getStorageAt : Nat → Felt → Nat → Except Failure Felt
  getStateUpdate : Nat → Nat → Except Failure StateUpdate

/-- A state update that was read, with the block and the slot it was read for. -/
structure Read where
  slot : Felt
  block : Nat
  update : StateUpdate
deriving DecidableEq

/-- `reads` is a record for proofs, read by no code. -/
structure Attribution where
  pending : Finset Felt
  blocks : List Nat
  moment : Nat
  reads : List Read

section

variable (P : FeltParser) (c : StorageClient) (pool : Felt)

/-! ## The loop -/

/-- Zero at `lo`, non-zero at `hi`; the block and the next moment. -/
def bisect (slot : Felt) (lo hi moment : Nat) : Except Failure (Nat × Nat) :=
  if lo + 1 < hi then do
    let mid := lo + (hi - lo) / 2
    let v ← c.getStorageAt moment slot mid
    if v = 0 then bisect slot mid hi (moment + 1) else bisect slot lo mid (moment + 1)
  else pure (hi, moment)
termination_by hi - lo
decreasing_by
  · omega
  · omega

/-- The keys of one contract, if it is the pool, after those before it. -/
def contractKeys (keys : List Felt) (d : ContractStorageDiff) : Except Failure (List Felt) := do
  let addr ← parseFelt P d.address
  if addr ≠ pool then pure keys
  else do
    let entries ← d.storageEntries.mapM fun e => parseFelt P e.1
    pure (keys ++ entries)

/-- The keys an update writes in the pool, in order. -/
def poolKeys (update : StateUpdate) : Except Failure (List Felt) :=
  update.storageDiffs.foldlM (contractKeys P pool) []

/-- Keys leave the pending ones; how many did. -/
def claim (keys : List Felt) (pending : Finset Felt) : Finset Felt × Nat :=
  keys.foldl (fun s k => if k ∈ s.1 then (s.1.erase k, s.2 + 1) else s) (pending, 0)

def unclaimedMessage (slot : Felt) (block : Nat) : String :=
  "slot " ++ feltHex slot ++ " first turns non-zero at block " ++ block.repr ++
    ", but that block's state update writes no pool slot. The chain is answering two questions " ++
    "inconsistently; stopping rather than repairing the wrong block."

/-- One slot of the list. -/
def attributeSlot (first last : Nat) (s : Attribution) (slot : Felt) :
    Except Failure Attribution :=
  -- already claimed by a block found for a sibling slot
  if slot ∉ s.pending then pure s
  else do
    let (block, moment) ← bisect c slot (first - 1) last s.moment
    let update ← c.getStateUpdate moment block
    let keys ← poolKeys P pool update
    let claimed := claim keys s.pending
    if claimed.2 = 0 then throw (.other (unclaimedMessage slot block))
    else pure ⟨claimed.1, s.blocks ++ [block], moment + 1, s.reads ++ [⟨slot, block, update⟩]⟩

/-- The run over the list, from its first question. -/
def attributeRun (slots : List Felt) (first last : Nat) : Except Failure Attribution :=
  slots.foldlM (attributeSlot P c pool first last) ⟨slots.toFinset, [], 0, []⟩

/-- `blocks.sort_unstable(); blocks.dedup()`. -/
def Attribution.sortedBlocks (s : Attribution) : List Nat :=
  (s.blocks.mergeSort fun a b => a ≤ b).destutter (· ≠ ·)

def attributeToBlocks (slots : List Felt) (first last : Nat) : Except Failure (List Nat) :=
  (attributeRun P c pool slots first last).map Attribution.sortedBlocks

/-! ## What an update names -/

/-- The update has a storage entry of the pool for the slot. -/
def Names (update : StateUpdate) (slot : Felt) : Prop :=
  ∃ d ∈ update.storageDiffs, parseFelt P d.address = .ok pool ∧
    ∃ e ∈ d.storageEntries, parseFelt P e.1 = .ok slot

variable {P c pool}

theorem mem_mapM_iff {l : List (String × String)} {keys : List Felt}
    (h : l.mapM (fun e => parseFelt P e.1) = .ok keys) (slot : Felt) :
    slot ∈ keys ↔ ∃ e ∈ l, parseFelt P e.1 = .ok slot := by
  induction l generalizing keys with
  | nil =>
      rw [List.mapM_nil, pure_eq_ok] at h
      simp [← h]
  | cons e l ih =>
      rw [List.mapM_cons] at h
      obtain ⟨k, hk, h⟩ := bind_eq_ok.mp h
      obtain ⟨ks, hks, h⟩ := bind_eq_ok.mp h
      obtain rfl := pure_eq_ok.mp h
      rw [List.mem_cons, ih hks, List.exists_mem_cons_iff, hk, Except.ok.injEq, eq_comm]

theorem poolKeys_fold {ds : List ContractStorageDiff} {before keys : List Felt}
    (h : ds.foldlM (contractKeys P pool) before = .ok keys) (slot : Felt) :
    slot ∈ keys ↔ slot ∈ before ∨ ∃ d ∈ ds, parseFelt P d.address = .ok pool ∧
      ∃ e ∈ d.storageEntries, parseFelt P e.1 = .ok slot := by
  induction ds generalizing before with
  | nil =>
      rw [List.foldlM_nil, pure_eq_ok] at h
      simp [h]
  | cons d ds ih =>
      rw [List.foldlM_cons] at h
      obtain ⟨keys₁, hd, h⟩ := bind_eq_ok.mp h
      obtain ⟨addr, haddr, hd⟩ := bind_eq_ok.mp hd
      rw [ih h, List.exists_mem_cons_iff, haddr, Except.ok.injEq]
      split at hd
      · rename_i hne
        obtain rfl := pure_eq_ok.mp hd
        simp [hne]
      · rename_i heq
        obtain ⟨entries, hentries, hd⟩ := bind_eq_ok.mp hd
        obtain rfl := pure_eq_ok.mp hd
        rw [List.mem_append, mem_mapM_iff hentries, or_assoc]
        simp [not_not.mp heq]

theorem mem_poolKeys {update : StateUpdate} {keys : List Felt}
    (h : poolKeys P pool update = .ok keys) (slot : Felt) :
    slot ∈ keys ↔ Names P pool update slot := by
  rw [poolKeys_fold h]
  simp [Names]

theorem mem_claim (keys : List Felt) (pending : Finset Felt) (slot : Felt) :
    slot ∈ (claim keys pending).1 ↔ slot ∈ pending ∧ slot ∉ keys := by
  have hfold : ∀ (keys : List Felt) (s : Finset Felt × Nat),
      slot ∈ (keys.foldl (fun s k => if k ∈ s.1 then (s.1.erase k, s.2 + 1) else s) s).1 ↔
        slot ∈ s.1 ∧ slot ∉ keys := by
    intro keys
    induction keys with
    | nil => simp
    | cons k keys ih =>
        intro s
        rw [List.foldl_cons, ih]
        split
        · simp only [Finset.mem_erase, List.mem_cons, not_or]
          tauto
        · rename_i hk
          rw [List.mem_cons, not_or]
          constructor
          · rintro ⟨hs, hkeys⟩
            exact ⟨hs, fun heq => hk (heq ▸ hs), hkeys⟩
          · rintro ⟨hs, -, hkeys⟩
            exact ⟨hs, hkeys⟩
  exact hfold keys (pending, 0)

/-! ## The run -/

variable (c) in
/-- Where the endpoint has a slot turn non-zero, as far as a bisection asks: zero at the
block before, unless that is where it starts, and non-zero there, unless that is where it
ends. -/
structure TurnsAt (slot : Felt) (first last block : Nat) : Prop where
  before : block ≤ first - 1 + 1 ∨ ∃ t, c.getStorageAt t slot (block - 1) = .ok 0
  here : block = last ∨ ∃ t v, c.getStorageAt t slot block = .ok v ∧ v ≠ 0

theorem bisect_turns {slot : Felt} {lo hi moment block moment' : Nat}
    (h : bisect c slot lo hi moment = .ok (block, moment')) :
    (lo < hi → lo < block) ∧
      (block ≤ lo + 1 ∨ ∃ t, c.getStorageAt t slot (block - 1) = .ok 0) ∧
      (block = hi ∨ ∃ t v, c.getStorageAt t slot block = .ok v ∧ v ≠ 0) := by
  induction lo, hi, moment using bisect.induct with
  | case1 lo hi moment hlt mid ihlow ihhigh =>
      rw [bisect, if_pos hlt] at h
      obtain ⟨v, hv, h⟩ := bind_eq_ok.mp h
      have hlow : lo < lo + (hi - lo) / 2 := by omega
      have hhigh : lo + (hi - lo) / 2 < hi := by omega
      split at h
      · -- zero in the middle: what is left begins there
        rename_i hzero
        obtain ⟨hbelow, hbefore, hhere⟩ := ihlow h
        have hmid := hbelow hhigh
        refine ⟨fun _ => lt_trans hlow hmid, Or.inr ?_, hhere⟩
        rcases hbefore with hle | hasked
        · refine ⟨moment, ?_⟩
          rw [show block - 1 = lo + (hi - lo) / 2 by omega, hv, hzero]
        · exact hasked
      · rename_i hne
        obtain ⟨hbelow, hbefore, hhere⟩ := ihhigh h
        refine ⟨fun _ => hbelow hlow, hbefore, Or.inr ?_⟩
        rcases hhere with rfl | hasked
        · exact ⟨moment, v, hv, hne⟩
        · exact hasked
  | case2 lo hi moment hge =>
      rw [bisect, if_neg hge] at h
      obtain ⟨rfl, -⟩ := Prod.mk.inj (pure_eq_ok.mp h)
      exact ⟨fun hlt => hlt, Or.inl (by omega), Or.inl rfl⟩

variable (c) in
/-- A read: of the block that the slot turns at, answered by the endpoint. -/
structure Answered (first last : Nat) (r : Read) : Prop where
  turns : TurnsAt c r.slot first last r.block
  update : ∃ t, c.getStateUpdate t r.block = .ok r.update

variable (P c pool) in
/-- What holds after the slots `seen` of the list were gone through. -/
structure Claimed (first last : Nat) (slots seen : List Felt) (s : Attribution) : Prop where
  pending : ∀ k, k ∈ s.pending ↔ k ∈ slots ∧ ∀ r ∈ s.reads, ¬ Names P pool r.update k
  visited : ∀ k ∈ seen, k ∈ s.pending → ∃ r ∈ s.reads, r.slot = k
  listed : ∀ r ∈ s.reads, r.slot ∈ slots
  fresh : ∀ before r after, s.reads = before ++ r :: after →
    ∀ r' ∈ before, ¬ Names P pool r'.update r.slot
  blocks : s.blocks = s.reads.map Read.block
  answered : ∀ r ∈ s.reads, Answered c first last r

theorem Claimed.start (first last : Nat) (slots : List Felt) :
    Claimed P c pool first last slots [] ⟨slots.toFinset, [], 0, []⟩ := by
  refine ⟨?_, ?_, ?_, ?_, rfl, ?_⟩
  · simp
  · simp
  · simp
  · intro before r after h
    simp at h
  · simp

/-- **One slot.** -/
theorem Claimed.step {slots seen : List Felt} {s s' : Attribution} {slot : Felt} {first last : Nat}
    (h : Claimed P c pool first last slots seen s) (hslot : slot ∈ slots)
    (hok : attributeSlot P c pool first last s slot = .ok s') :
    Claimed P c pool first last slots (seen ++ [slot]) s' := by
  rw [attributeSlot] at hok
  split at hok
  · rename_i hgone
    obtain rfl := pure_eq_ok.mp hok
    refine ⟨h.pending, fun k hk hkp => ?_, h.listed, h.fresh, h.blocks, h.answered⟩
    rcases List.mem_append.mp hk with hk | hk
    · exact h.visited k hk hkp
    · rw [List.mem_singleton.mp hk] at hkp
      exact absurd hkp hgone
  · rename_i hpending
    rw [not_not] at hpending
    obtain ⟨⟨block, moment⟩, hbisect, hok⟩ := bind_eq_ok.mp hok
    obtain ⟨update, hupdate, hok⟩ := bind_eq_ok.mp hok
    obtain ⟨keys, hkeys, hok⟩ := bind_eq_ok.mp hok
    obtain ⟨-, hok⟩ := ite_throw_eq_ok.mp hok
    obtain rfl := pure_eq_ok.mp hok
    have hmem : ∀ k, k ∈ (claim keys s.pending).1 ↔
        k ∈ s.pending ∧ ¬ Names P pool update k := fun k => by
      rw [mem_claim, mem_poolKeys hkeys]
    refine ⟨fun k => ?_, fun k hk hkp => ?_, fun r hr => ?_, ?_, ?_, fun r hr => ?_⟩
    · show k ∈ (claim keys s.pending).1 ↔ _
      rw [hmem, h.pending, List.forall_mem_append]
      simp only [List.mem_singleton, forall_eq, and_assoc]
    · have hleft := (hmem k).mp hkp
      rcases List.mem_append.mp hk with hk | hk
      · obtain ⟨r, hr, hrk⟩ := h.visited k hk hleft.1
        exact ⟨r, List.mem_append_left _ hr, hrk⟩
      · rw [List.mem_singleton.mp hk]
        exact ⟨⟨slot, block, update⟩, List.mem_append_right _ (List.mem_singleton_self _), rfl⟩
    · rcases List.mem_append.mp hr with hr | hr
      · exact h.listed r hr
      · rw [List.mem_singleton.mp hr]
        exact hslot
    · -- the new read was made for a slot that no read before it names
      intro before r after hsplit
      rcases List.append_eq_append_iff.mp hsplit with ⟨tail, hbefore, htail⟩ | ⟨tail, hreads, htail⟩
      · cases tail with
        | nil =>
            rw [List.nil_append, List.cons.injEq] at htail
            obtain ⟨rfl, -⟩ := htail
            rw [hbefore, List.append_nil]
            exact ((h.pending slot).mp hpending).2
        | cons x tail =>
            rw [List.cons_append, List.cons.injEq] at htail
            simp at htail
      · cases tail with
        | nil =>
            rw [List.nil_append, List.cons.injEq] at htail
            obtain ⟨rfl, -⟩ := htail
            rw [List.append_nil] at hreads
            rw [← hreads]
            exact ((h.pending slot).mp hpending).2
        | cons x tail =>
            rw [List.cons_append, List.cons.injEq] at htail
            obtain ⟨rfl, -⟩ := htail
            exact h.fresh before r tail hreads
    · rw [h.blocks, List.map_append]
      rfl
    · rcases List.mem_append.mp hr with hr | hr
      · exact h.answered r hr
      · rw [List.mem_singleton.mp hr]
        obtain ⟨-, hbefore, hhere⟩ := bisect_turns hbisect
        exact ⟨⟨hbefore, hhere⟩, moment, hupdate⟩

/-- **The loop.** -/
theorem Claimed.run {slots : List Felt} {first last : Nat} : ∀ {rest seen : List Felt}
    {s s' : Attribution}, Claimed P c pool first last slots seen s → (∀ k ∈ rest, k ∈ slots) →
      rest.foldlM (attributeSlot P c pool first last) s = .ok s' →
        Claimed P c pool first last slots (seen ++ rest) s'
  | [], seen, s, s', h, _, hok => by
      rw [List.foldlM_nil, pure_eq_ok] at hok
      rw [List.append_nil, ← hok]
      exact h
  | slot :: rest, seen, s, s', h, hsub, hok => by
      rw [List.foldlM_cons] at hok
      obtain ⟨s₁, hs₁, hok⟩ := bind_eq_ok.mp hok
      obtain ⟨hslot, hrest⟩ := List.forall_mem_cons.mp hsub
      have hfinal := Claimed.run (h.step hslot hs₁) hrest hok
      rwa [List.append_assoc, List.singleton_append] at hfinal

theorem mem_sortedBlocks {s : Attribution} {b : Nat} : b ∈ s.sortedBlocks ↔ b ∈ s.blocks := by
  rw [Attribution.sortedBlocks, Versioned.mem_destutter_ne, List.mem_mergeSort]

variable (P c pool)

/-- Every slot is a storage entry of the pool in the update that was read for some returned
block. -/
def Attributed (slots : List Felt) (reads : List Read) (blocks : List Nat) : Prop :=
  ∀ slot ∈ slots, ∃ r ∈ reads, r.block ∈ blocks ∧ Names P pool r.update slot

/-- Every slot that was bisected is named by the update read for it, or by one read later. -/
def NamedInTime (reads : List Read) : Prop :=
  ∀ before r after, reads = before ++ r :: after →
    ∃ r' ∈ r :: after, Names P pool r'.update r.slot

variable {P c pool}

/-- A whole run: what is dropped is what no update named in time. -/
theorem Claimed.complete {first last : Nat} {slots : List Felt} {s : Attribution}
    (h : Claimed P c pool first last slots slots s) :
    Attributed P pool slots s.reads s.sortedBlocks ↔ NamedInTime P pool s.reads := by
  constructor
  · intro hall before r after hsplit
    have hr : r ∈ s.reads := by
      rw [hsplit]
      exact List.mem_append_right _ List.mem_cons_self
    obtain ⟨r', hr', -, hnames⟩ := hall r.slot (h.listed r hr)
    rw [hsplit] at hr'
    rcases List.mem_append.mp hr' with hbefore | hafter
    · exact absurd hnames (h.fresh before r after hsplit r' hbefore)
    · exact ⟨r', hafter, hnames⟩
  · intro hintime slot hslot
    by_contra hnone
    have hunnamed : ∀ r ∈ s.reads, ¬ Names P pool r.update slot := by
      intro r hr hnames
      refine hnone ⟨r, hr, mem_sortedBlocks.mpr ?_, hnames⟩
      rw [h.blocks]
      exact List.mem_map_of_mem hr
    obtain ⟨r, hr, rfl⟩ := h.visited slot hslot ((h.pending slot).mpr ⟨hslot, hunnamed⟩)
    obtain ⟨before, after, hsplit⟩ := List.append_of_mem hr
    obtain ⟨r', hr', hnames⟩ := hintime before r after hsplit
    refine hunnamed r' ?_ hnames
    rw [hsplit]
    exact List.mem_append_right _ hr'

theorem attributeToBlocks_run {slots : List Felt} {first last : Nat} {blocks : List Nat}
    (h : attributeToBlocks P c pool slots first last = .ok blocks) :
    ∃ s, attributeRun P c pool slots first last = .ok s ∧ blocks = s.sortedBlocks ∧
      Claimed P c pool first last slots slots s := by
  rw [attributeToBlocks] at h
  cases hrun : attributeRun P c pool slots first last with
  | error e =>
      rw [hrun] at h
      cases h
  | ok s =>
      rw [hrun] at h
      cases h
      have hclaimed := (Claimed.start first last slots).run (fun _ hk => hk) hrun
      rw [List.nil_append] at hclaimed
      exact ⟨s, rfl, rfl, hclaimed⟩

variable (P c pool)

/-- **Attribution.** A run that returns drops no slot exactly when every slot it bisected is named
by the update it was bisected for or a later one. -/
theorem attributed_iff (slots : List Felt) (first last : Nat) (blocks : List Nat)
    (h : attributeToBlocks P c pool slots first last = .ok blocks) :
    ∃ s, attributeRun P c pool slots first last = .ok s ∧ blocks = s.sortedBlocks ∧
      (Attributed P pool slots s.reads blocks ↔ NamedInTime P pool s.reads) := by
  obtain ⟨s, hrun, rfl, hclaimed⟩ := attributeToBlocks_run h
  exact ⟨s, hrun, rfl, hclaimed.complete⟩

/-- **Attribution at a consistent endpoint.** Where the updates of the blocks that the listed
slots turn at name those slots, no slot is dropped: a condition on the endpoint alone, not on
what the run has read. -/
theorem attributed_consistent (slots : List Felt) (first last : Nat) (blocks : List Nat)
    (hnamed : ∀ slot ∈ slots, ∀ block, TurnsAt c slot first last block →
      ∀ t update, c.getStateUpdate t block = .ok update → Names P pool update slot)
    (h : attributeToBlocks P c pool slots first last = .ok blocks) :
    ∃ s, attributeRun P c pool slots first last = .ok s ∧ Attributed P pool slots s.reads blocks := by
  obtain ⟨s, hrun, rfl, hclaimed⟩ := attributeToBlocks_run h
  refine ⟨s, hrun, hclaimed.complete.mpr fun before r after hsplit => ⟨r, List.mem_cons_self, ?_⟩⟩
  have hr : r ∈ s.reads := by
    rw [hsplit]
    exact List.mem_append_right _ List.mem_cons_self
  obtain ⟨hturns, t, hupdate⟩ := hclaimed.answered r hr
  exact hnamed r.slot (hclaimed.listed r hr) r.block hturns t r.update hupdate

end

/-! ## A dropped slot -/

/-- A block that writes slot 2 of the pool 9, and nothing else. -/
def secondWritten : StateUpdate := ⟨none, [⟨"0x9", [("0x2", "0x1")]⟩], [], []⟩

/-- The endpoint of a chain whose every block is that one. -/
def secondClient : StorageClient where
  getStorageAt _ _ _ := .ok 1
  getStateUpdate _ _ := .ok secondWritten

theorem bisect_second (slot : Felt) (moment : Nat) :
    bisect secondClient slot (5 - 1) 5 moment = .ok (5, moment) := by
  rw [bisect, if_neg (by decide)]
  rfl

theorem poolKeys_second : poolKeys hexParser 9 secondWritten = .ok [2] := rfl

theorem names_second {slot : Felt} : Names hexParser 9 secondWritten slot ↔ slot = 2 := by
  rw [← mem_poolKeys poolKeys_second, List.mem_singleton]

/-- A slot whose update claims something is recorded, whether it was claimed itself or not. -/
theorem attributeSlot_second {s : Attribution} {slot : Felt} (hslot : slot ∈ s.pending)
    (htwo : 2 ∈ s.pending) :
    attributeSlot hexParser secondClient 9 5 5 s slot =
      .ok ⟨s.pending.erase 2, s.blocks ++ [5], s.moment + 1,
        s.reads ++ [⟨slot, 5, secondWritten⟩]⟩ := by
  have hclaim : claim [2] s.pending = (s.pending.erase 2, 1) := by
    simp [claim, htwo]
  have hupdate : secondClient.getStateUpdate s.moment 5 = .ok secondWritten := rfl
  rw [attributeSlot, if_neg (not_not.mpr hslot), bisect_second]
  simp only [bind, Except.bind, hupdate, poolKeys_second, hclaim, pure, Except.pure]
  rfl

theorem attributeRun_second : attributeRun hexParser secondClient 9 [1, 2] 5 5 =
    .ok ⟨([1, 2] : List Felt).toFinset.erase 2, [5], 1, [⟨1, 5, secondWritten⟩]⟩ := by
  rw [attributeRun, List.foldlM_cons, attributeSlot_second (by decide) (by decide)]
  simp only [bind, Except.bind, List.foldlM_cons]
  rw [attributeSlot, if_pos (by decide)]
  rfl

/-- Slot 1 is bisected to block 5, whose update names only slot 2: block 5 is returned, and slot 1
is dropped. -/
theorem slot_dropped :
    attributeToBlocks hexParser secondClient 9 [1, 2] 5 5 = .ok [5] ∧
      ∃ s, attributeRun hexParser secondClient 9 [1, 2] 5 5 = .ok s ∧
        ¬ Attributed hexParser 9 [1, 2] s.reads [5] := by
  refine ⟨?_, _, attributeRun_second, fun h => ?_⟩
  · rw [attributeToBlocks, attributeRun_second]
    simp [Except.map, Attribution.sortedBlocks]
  · obtain ⟨r, hr, -, hnames⟩ := h 1 List.mem_cons_self
    rw [List.mem_singleton.mp hr] at hnames
    exact absurd (names_second.mp hnames) (by decide)

theorem attributed_second :
    attributeToBlocks hexParser secondClient 9 [2] 5 5 = .ok [5] ∧
      ∃ s, attributeRun hexParser secondClient 9 [2] 5 5 = .ok s ∧ [5] = s.sortedBlocks ∧
        (Attributed hexParser 9 [2] s.reads [5] ↔ NamedInTime hexParser 9 s.reads) := by
  have hrun : attributeRun hexParser secondClient 9 [2] 5 5 =
      .ok ⟨([2] : List Felt).toFinset.erase 2, [5], 1, [⟨2, 5, secondWritten⟩]⟩ := by
    rw [attributeRun, List.foldlM_cons, attributeSlot_second (by decide) (by decide)]
    rfl
  have hok : attributeToBlocks hexParser secondClient 9 [2] 5 5 = .ok [5] := by
    rw [attributeToBlocks, hrun]
    simp [Except.map, Attribution.sortedBlocks]
  exact ⟨hok, attributed_iff hexParser secondClient 9 [2] 5 5 [5] hok⟩

end Strk20.Indexer.Attribute
