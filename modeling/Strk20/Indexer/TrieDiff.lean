import Strk20.Indexer.TrieWalk

/-!
# What the walk reports

A finished walk lists every slot the chain has and the mirror lacks, and every slot
held at two values. What only the mirror holds is listed only where the chain is empty.

- `SlotMap`, `ExactDiff`: two slot maps and their difference.
- `walk_exact_iff`: the report is the difference, extras apart.
-/

namespace Strk20.Indexer.TrieWalk

open Feed Feed.Mpt BitPath Patricia Strk20.Lists Tables Result
open Std (ExtTreeMap)

section

variable {P : FeltParser} {pedersen : Felt → Felt → Felt} {g : List Bool → Felt} {diff : SlotDiff}
variable {chain mirror : List (Felt × Felt)}

/-- Slots with their values: distinct keys below `2^251`, no zero. -/
structure SlotMap (entries : List (Felt × Felt)) : Prop where
  isTrieKey : ∀ e ∈ entries, e.1.val < 2 ^ 251
  nodup : (entries.map Prod.fst).Nodup
  nonzero : ∀ e ∈ entries, e.2 ≠ 0

theorem SlotMap.slotSet {entries : List (Felt × Felt)} (h : SlotMap entries) : SlotSet entries :=
  ⟨h.isTrieKey, h.nodup.sublist (List.filter_sublist.map Prod.fst)⟩

theorem SlotMap.mem_iff {entries : List (Felt × Felt)} (h : SlotMap entries) {slot v : Felt} :
    (slot, v) ∈ entries ↔ v ≠ 0 ∧ slotValue entries slot = v := by
  constructor
  · intro hmem
    have hv := h.nonzero _ hmem
    exact ⟨hv, (slotValue_eq_iff h.slotSet hv).mpr hmem⟩
  · rintro ⟨hv, hvalue⟩
    exact (slotValue_eq_iff h.slotSet hv).mp hvalue

theorem SlotMap.slotValue_eq_zero {entries : List (Felt × Felt)} (h : SlotMap entries) {slot : Felt} :
    slotValue entries slot = 0 ↔ ∀ v, (slot, v) ∉ entries := by
  constructor
  · intro hzero v hmem
    exact (h.mem_iff.mp hmem).1 ((h.mem_iff.mp hmem).2.symm.trans hzero)
  · intro hnone
    by_contra hne
    exact hnone _ (h.mem_iff.mpr ⟨hne, rfl⟩)

/-- A slot that is held has a key below `2^251`. -/
theorem SlotMap.key_lt {entries : List (Felt × Felt)} (h : SlotMap entries) {slot : Felt}
    (hne : slotValue entries slot ≠ 0) : slot.val < 2 ^ 251 :=
  h.isTrieKey (slot, slotValue entries slot) (h.mem_iff.mpr ⟨hne, rfl⟩)

/-- What the chain has and the mirror lacks, what both hold at different values, what
only the mirror holds; each slot once, and a clean report of equal roots only. -/
structure ExactDiff (pedersen : Felt → Felt → Felt) (chain mirror : List (Felt × Felt)) (diff : SlotDiff) : Prop where
  missing : ∀ slot v, (slot, v) ∈ diff.missing ↔ (slot, v) ∈ chain ∧ ∀ w, (slot, w) ∉ mirror
  divergent : ∀ slot ours theirs, (slot, ours, theirs) ∈ diff.divergent ↔
    (slot, ours) ∈ mirror ∧ (slot, theirs) ∈ chain ∧ ours ≠ theirs
  extra : ∀ slot, slot ∈ diff.extra ↔ (∃ v, (slot, v) ∈ mirror) ∧ ∀ w, (slot, w) ∉ chain
  once : diff.missing.Nodup ∧ diff.divergent.Nodup ∧ diff.extra.Nodup
  clean : diff.isClean = true ↔ storageRoot pedersen chain = storageRoot pedersen mirror

/-- Slots that agree have one root. -/
theorem storageRoot_congr (hchain : SlotMap chain) (hmirror : SlotMap mirror)
    (h : ∀ slot, slotValue chain slot = slotValue mirror slot) :
    storageRoot pedersen chain = storageRoot pedersen mirror := by
  rw [storageRoot_eq_root pedersen hchain.slotSet, storageRoot_eq_root pedersen hmirror.slotSet]
  exact root_congr fun k _ => h (bitsToFelt k)

/-- One root is one slot map. -/
theorem slotValue_eq_of_root (hS : WalkHashing pedersen chain mirror) (hchain : SlotMap chain)
    (hmirror : SlotMap mirror) (h : storageRoot pedersen chain = storageRoot pedersen mirror)
    (slot : Felt) : slotValue chain slot = slotValue mirror slot := by
  rw [storageRoot_eq_root pedersen hchain.slotSet, storageRoot_eq_root pedersen hmirror.slotSet] at h
  have hall : ∀ key : Felt, key.val < 2 ^ 251 → slotValue chain key = slotValue mirror key := by
    intro key hkey
    have hslots := root_inj hS (fun b hb => Or.inl ⟨[], Nat.zero_le _, hb⟩)
      (fun b hb => Or.inr ⟨[], Nat.zero_le _, hb⟩) h (keyBits key) (length_keyBits key)
    rwa [below_nil, below_nil, slotFn_keyBits hkey, slotFn_keyBits hkey] at hslots
  by_cases hzero : slotValue chain slot = 0
  · by_cases hzero' : slotValue mirror slot = 0
    · rw [hzero, hzero']
    · exact hall slot (hmirror.key_lt hzero')
  · exact hall slot (hchain.key_lt hzero)

/-- Exact lists make a clean report one of equal roots. -/
theorem exactDiff_of_lists (hS : WalkHashing pedersen chain mirror) (hchain : SlotMap chain)
    (hmirror : SlotMap mirror)
    (hmissing : ∀ slot v, (slot, v) ∈ diff.missing ↔ (slot, v) ∈ chain ∧ ∀ w, (slot, w) ∉ mirror)
    (hdivergent : ∀ slot ours theirs, (slot, ours, theirs) ∈ diff.divergent ↔
      (slot, ours) ∈ mirror ∧ (slot, theirs) ∈ chain ∧ ours ≠ theirs)
    (hextra : ∀ slot, slot ∈ diff.extra ↔ (∃ v, (slot, v) ∈ mirror) ∧ ∀ w, (slot, w) ∉ chain)
    (honce : diff.missing.Nodup ∧ diff.divergent.Nodup ∧ diff.extra.Nodup) :
    ExactDiff pedersen chain mirror diff := by
  refine ⟨hmissing, hdivergent, hextra, honce, ?_⟩
  unfold SlotDiff.isClean
  rw [Bool.and_eq_true, Bool.and_eq_true, List.isEmpty_iff, List.isEmpty_iff, List.isEmpty_iff]
  constructor
  · rintro ⟨⟨hm, hd⟩, he⟩
    refine storageRoot_congr hchain hmirror fun slot => ?_
    rw [hm] at hmissing
    rw [hd] at hdivergent
    rw [he] at hextra
    by_cases hc : slotValue chain slot = 0
    · by_cases hv : slotValue mirror slot = 0
      · rw [hc, hv]
      · exact absurd ((hextra slot).mpr ⟨⟨_, hmirror.mem_iff.mpr ⟨hv, rfl⟩⟩,
          hchain.slotValue_eq_zero.mp hc⟩) List.not_mem_nil
    · have hin := hchain.mem_iff.mpr ⟨hc, rfl⟩
      by_cases hv : slotValue mirror slot = 0
      · exact absurd ((hmissing _ _).mpr ⟨hin, hmirror.slotValue_eq_zero.mp hv⟩) List.not_mem_nil
      · by_contra hne
        exact absurd ((hdivergent _ _ _).mpr ⟨hmirror.mem_iff.mpr ⟨hv, rfl⟩, hin, Ne.symm hne⟩)
          List.not_mem_nil
  · intro hroots
    have hsame := slotValue_eq_of_root hS hchain hmirror hroots
    refine ⟨⟨?_, ?_⟩, ?_⟩
    · refine List.eq_nil_iff_forall_not_mem.mpr ?_
      rintro ⟨slot, v⟩ hmem
      obtain ⟨hin, hnone⟩ := (hmissing slot v).mp hmem
      obtain ⟨hv, hvalue⟩ := hchain.mem_iff.mp hin
      exact hnone v (hmirror.mem_iff.mpr ⟨hv, (hsame slot).symm.trans hvalue⟩)
    · refine List.eq_nil_iff_forall_not_mem.mpr ?_
      rintro ⟨slot, ours, theirs⟩ hmem
      obtain ⟨hours, htheirs, hne⟩ := (hdivergent slot ours theirs).mp hmem
      apply hne
      rw [← (hmirror.mem_iff.mp hours).2, ← (hchain.mem_iff.mp htheirs).2, hsame]
    · refine List.eq_nil_iff_forall_not_mem.mpr fun slot hmem => ?_
      obtain ⟨⟨v, hv⟩, hnone⟩ := (hextra slot).mp hmem
      obtain ⟨hne, hvalue⟩ := hmirror.mem_iff.mp hv
      exact hnone v (hchain.mem_iff.mpr ⟨hne, (hsame slot).trans hvalue⟩)

theorem seed_ok {c : ProofClient} {block moment : Nat} {chainRoot : Felt} {nodes : Nodes}
    (hc : AnswersFrom P pedersen c block chain) (h : seed P c block = .ok (chainRoot, nodes, moment)) :
    chainRoot = storageRoot pedersen chain ∧ NodesTrue P pedersen chain nodes := by
  obtain ⟨⟨⟨proof, raw⟩, m⟩, hbound, h⟩ := bind_eq_ok.mp h
  obtain ⟨asked, hanswer⟩ := boundProof_ok hbound
  simp only at h
  split at h
  · cases h
  · rename_i leaf hleaf
    obtain ⟨root, hroot, h⟩ := bind_eq_ok.mp h
    obtain ⟨nodes₁, habsorb, h⟩ := bind_eq_ok.mp h
    obtain ⟨rfl, rfl, -⟩ : _ ∧ _ ∧ _ := by simpa using pure_eq_ok.mp h
    have hparsed := hc.root asked [] proof raw leaf hanswer hleaf
    constructor
    · unfold parseFelt at hroot
      rw [hparsed] at hroot
      exact (Except.ok.inj hroot).symm
    · refine nodesTrue_absorb ?_ (hc.nodes asked [] proof raw hanswer) habsorb
      intro k text hk
      rw [ExtTreeMap.getElem?_empty] at hk
      cases hk

/-- What a closed walk reports, in terms of the two maps. -/
theorem Walked.lists (hchain : SlotMap chain) (hmirror : SlotMap mirror)
    (h : Walked pedersen (slotFn chain) (slotFn mirror) [] diff) :
    (∀ slot v, (slot, v) ∈ diff.missing ↔ (slot, v) ∈ chain ∧ ∀ w, (slot, w) ∉ mirror) ∧
      (∀ slot ours theirs, (slot, ours, theirs) ∈ diff.divergent ↔
        (slot, ours) ∈ mirror ∧ (slot, theirs) ∈ chain ∧ ours ≠ theirs) ∧
      diff.missing.Nodup ∧ diff.divergent.Nodup := by
  -- the frontier is empty: what the walk still owed has been reported
  have hfound : ∀ slot : Felt, slotValue chain slot ≠ 0 →
      slotValue chain slot ≠ slotValue mirror slot → slot ∈ diff.reported := by
    intro slot hne hdiffer
    have hlt := hchain.key_lt hne
    have hkey := bitsToFelt_keyBits hlt
    have hcomplete := h.complete (keyBits slot) (length_keyBits slot)
    rw [slotFn_keyBits hlt, slotFn_keyBits hlt, hkey] at hcomplete
    rcases hcomplete hne hdiffer with hin | ⟨item, hitem, -⟩
    · exact hin
    · exact absurd hitem List.not_mem_nil
  have hmissing : ∀ e ∈ diff.missing, e.2 ≠ 0 ∧ slotValue chain e.1 = e.2 ∧
      slotValue mirror e.1 = 0 := by
    intro e he
    obtain ⟨hlt, hne, hc, hv⟩ := h.missing e he
    rw [slotFn_keyBits hlt] at hc hv
    exact ⟨hne, hc, hv⟩
  have hdivergent : ∀ e ∈ diff.divergent, e.2.1 ≠ 0 ∧ e.2.2 ≠ 0 ∧ e.2.1 ≠ e.2.2 ∧
      slotValue mirror e.1 = e.2.1 ∧ slotValue chain e.1 = e.2.2 := by
    intro e he
    obtain ⟨hlt, hours, htheirs, hne, hv, hc⟩ := h.divergent e he
    rw [slotFn_keyBits hlt] at hc hv
    exact ⟨hours, htheirs, hne, hv, hc⟩
  have hcount : ∀ slot ∈ diff.reported, diff.reported.count slot ≤ 1 := by
    intro slot hslot
    have hlt : slot.val < 2 ^ 251 := by
      rcases List.mem_append.mp hslot with hin | hin
      · obtain ⟨e, he, rfl⟩ := List.mem_map.mp hin
        exact (h.missing e he).1
      · obtain ⟨e, he, rfl⟩ := List.mem_map.mp hin
        exact (h.divergent e he).1
    have hkey := bitsToFelt_keyBits hlt
    have honce := h.once (keyBits slot) (length_keyBits slot)
    rw [hkey] at honce
    omega
  have hreported : diff.reported.Nodup := by
    rw [List.nodup_iff_count_le_one]
    intro slot
    by_cases hin : slot ∈ diff.reported
    · exact hcount slot hin
    · rw [List.count_eq_zero.mpr hin]
      exact Nat.zero_le 1
  -- both lists together name no slot twice, so neither does alone
  obtain ⟨hm, hd, -⟩ := List.nodup_append.mp hreported
  refine ⟨?_, ?_, hm.of_map, hd.of_map⟩
  · intro slot v
    constructor
    · intro hmem
      obtain ⟨hne, hc, hv⟩ := hmissing _ hmem
      exact ⟨hchain.mem_iff.mpr ⟨hne, hc⟩, hmirror.slotValue_eq_zero.mp hv⟩
    · rintro ⟨hin, hnone⟩
      obtain ⟨hne, hc⟩ := hchain.mem_iff.mp hin
      have hv := hmirror.slotValue_eq_zero.mpr hnone
      -- reported under one of the lists; the mirror's zero rules out the other
      have hfind := hfound slot (by rw [hc]; exact hne) (by rw [hc, hv]; exact hne)
      rcases List.mem_append.mp hfind with hin' | hin'
      · obtain ⟨e, he, heq⟩ := List.mem_map.mp hin'
        obtain ⟨-, hc', -⟩ := hmissing e he
        rw [heq, hc] at hc'
        rw [← heq, hc']
        exact he
      · obtain ⟨e, he, heq⟩ := List.mem_map.mp hin'
        obtain ⟨hours, -, -, hv', -⟩ := hdivergent e he
        rw [heq, hv] at hv'
        exact absurd hv'.symm hours
  · intro slot ours theirs
    constructor
    · intro hmem
      obtain ⟨hours, htheirs, hne, hv, hc⟩ := hdivergent _ hmem
      exact ⟨hmirror.mem_iff.mpr ⟨hours, hv⟩, hchain.mem_iff.mpr ⟨htheirs, hc⟩, hne⟩
    · rintro ⟨hours, htheirs, hne⟩
      obtain ⟨hone, hv⟩ := hmirror.mem_iff.mp hours
      obtain ⟨htne, hc⟩ := hchain.mem_iff.mp htheirs
      have hfind := hfound slot (by rw [hc]; exact htne) (by rw [hc, hv]; exact Ne.symm hne)
      rcases List.mem_append.mp hfind with hin' | hin'
      · obtain ⟨e, he, heq⟩ := List.mem_map.mp hin'
        obtain ⟨-, -, hv'⟩ := hmissing e he
        rw [heq, hv] at hv'
        exact absurd hv' hone
      · obtain ⟨e, he, heq⟩ := List.mem_map.mp hin'
        obtain ⟨-, -, -, hv', hc'⟩ := hdivergent e he
        rw [heq, hv] at hv'
        rw [heq, hc] at hc'
        rw [← heq, hv', hc']
        exact he

theorem SlotDiff.sort_mem (diff : SlotDiff) :
    (∀ e, e ∈ diff.sort.missing ↔ e ∈ diff.missing) ∧
      (∀ e, e ∈ diff.sort.divergent ↔ e ∈ diff.divergent) ∧
      (∀ e, e ∈ diff.sort.extra ↔ e ∈ diff.extra) ∧
      (diff.sort.missing.Nodup ↔ diff.missing.Nodup) ∧
      (diff.sort.divergent.Nodup ↔ diff.divergent.Nodup) ∧
      (diff.sort.extra.Nodup ↔ diff.extra.Nodup) :=
  ⟨fun _ => List.mem_mergeSort, fun _ => List.mem_mergeSort, fun _ => List.mem_mergeSort,
    (List.mergeSort_perm _ _).nodup_iff, (List.mergeSort_perm _ _).nodup_iff,
    (List.mergeSort_perm _ _).nodup_iff⟩

/-- Against an empty trie the walk ends in its first step, with every slot of the
mirror as extra. -/
theorem walkRounds_empty {c : ProofClient} {block fuel moment : Nat} {nodes : Nodes}
    (hdiffer : subtreeHashAt pedersen (bitEntries mirror) [] ≠ 0)
    (hok : walkRounds P pedersen c block fuel (bitEntries mirror) MAX_ROUNDS moment nodes [([], 0)]
      diff = some (.ok diff')) :
    diff'.missing = diff.missing ∧ diff'.divergent = diff.divergent ∧
      diff'.extra = diff.extra ++
        (entriesWithPrefix (bitEntries mirror) []).map fun e => bitsToFelt e.1 := by
  have hvisit : ∀ d : SlotDiff, TrieWalk.visit P pedersen (bitEntries mirror) nodes d ([], 0) =
      .ok ({ d with
        extra := d.extra ++ (entriesWithPrefix (bitEntries mirror) []).map fun e => bitsToFelt e.1 },
        [], []) := by
    intro d
    unfold TrieWalk.visit
    simp only
    rw [if_neg hdiffer, if_pos trivial]
  rw [show MAX_ROUNDS = 299 + 1 from rfl, walkRounds] at hok
  cases fuel with
  | zero => cases hok
  | succ fuel =>
      have hdrain : ∀ d : SlotDiff, TrieWalk.drain P pedersen (bitEntries mirror) nodes (fuel + 1)
          [([], 0)] d [] = some (.ok ({ d with
            extra := d.extra ++
              (entriesWithPrefix (bitEntries mirror) []).map fun e => bitsToFelt e.1 }, [])) := by
        intro d
        rw [TrieWalk.drain, hvisit]
        cases fuel <;> rfl
      rw [List.reverse_singleton, hdrain] at hok
      obtain rfl := Except.ok.inj (Option.some.inj hok)
      exact ⟨rfl, rfl, rfl⟩

/-- Of one root there is nothing to report. -/
theorem exactDiff_of_root_eq (hS : WalkHashing pedersen chain mirror) (hchain : SlotMap chain)
    (hmirror : SlotMap mirror) (hroots : storageRoot pedersen chain = storageRoot pedersen mirror)
    (hdiff : diff.missing = [] ∧ diff.divergent = [] ∧ diff.extra = []) :
    ExactDiff pedersen chain mirror diff ∧ ∀ e ∈ mirror, ∃ v, (e.1, v) ∈ chain := by
  have hsame := slotValue_eq_of_root hS hchain hmirror hroots
  have hmem : ∀ slot v, (slot, v) ∈ chain ↔ (slot, v) ∈ mirror := by
    intro slot v
    rw [hchain.mem_iff, hmirror.mem_iff, hsame]
  obtain ⟨hm, hd, he⟩ := hdiff
  refine ⟨exactDiff_of_lists hS hchain hmirror ?_ ?_ ?_ ?_, fun e he => ⟨e.2, (hmem e.1 e.2).mpr he⟩⟩
  · intro slot v
    rw [hm]
    refine ⟨fun h => absurd h List.not_mem_nil, ?_⟩
    rintro ⟨hin, hnone⟩
    exact absurd ((hmem slot v).mp hin) (hnone v)
  · intro slot ours theirs
    rw [hd]
    refine ⟨fun h => absurd h List.not_mem_nil, ?_⟩
    rintro ⟨hours, htheirs, hne⟩
    refine absurd ?_ hne
    rw [← (hmirror.mem_iff.mp hours).2, ← (hchain.mem_iff.mp htheirs).2, hsame]
  · intro slot
    rw [he]
    refine ⟨fun h => absurd h List.not_mem_nil, ?_⟩
    rintro ⟨⟨v, hv⟩, hnone⟩
    exact absurd ((hmem slot v).mpr hv) (hnone v)
  · rw [hm, hd, he]
    exact ⟨List.nodup_nil, List.nodup_nil, List.nodup_nil⟩

/-- The keys of a slot map, as the walk lists them. -/
theorem mirror_keys (hmirror : SlotMap mirror) :
    (∀ slot, slot ∈ (bitEntries mirror).map (fun e => bitsToFelt e.1) ↔ ∃ v, (slot, v) ∈ mirror) ∧
      ((bitEntries mirror).map fun e => bitsToFelt e.1).Nodup := by
  constructor
  · intro slot
    rw [List.mem_map]
    constructor
    · rintro ⟨⟨bits, v⟩, hin, rfl⟩
      obtain ⟨k, hk, -, rfl⟩ := mem_of_mem_bitEntries hin
      rw [bitsToFelt_keyBits (hmirror.isTrieKey _ hk)]
      exact ⟨v, hk⟩
    · rintro ⟨v, hv⟩
      have hlt := hmirror.isTrieKey _ hv
      exact ⟨(keyBits slot, v),
        (mem_bitEntries_iff hmirror.slotSet (hmirror.nonzero _ hv) hlt).mpr hv, bitsToFelt_keyBits hlt⟩
  · refine List.pairwise_map.mpr ((bitEntries_sorted mirror).imp_of_mem ?_)
    intro a b ha hb hab heq
    exact hab.2 (bitsToFelt_inj (mem_bitEntries_length ha).1 (mem_bitEntries_length hb).1 heq)

/-- The walk starts with everything pending under the empty prefix. -/
theorem Walked.start (hchain : SlotMap chain) (hne : chain ≠ [])
    (hdiff : diff.missing = [] ∧ diff.divergent = [] ∧ diff.extra = []) :
    Walked pedersen (slotFn chain) g [([], storageRoot pedersen chain)] diff := by
  obtain ⟨hm, hd, he⟩ := hdiff
  have hreported : diff.reported = [] := by
    unfold SlotDiff.reported
    rw [hm, hd]
    rfl
  refine ⟨?_, ?_, ?_, ?_, ?_, he⟩
  · intro item hitem
    rw [List.mem_singleton.mp hitem]
    obtain ⟨e, hin⟩ := List.exists_mem_of_ne_nil chain hne
    obtain ⟨hv, hvalue⟩ := hchain.mem_iff.mp (show (e.1, e.2) ∈ chain from hin)
    refine ⟨Nat.zero_le _, storageRoot_eq_root pedersen hchain.slotSet, keyBits e.1,
      length_keyBits e.1, ?_⟩
    show slotFn chain (keyBits e.1) ≠ 0
    rw [slotFn_keyBits (hchain.isTrieKey e hin), hvalue]
    exact hv
  · rw [hm]
    exact fun e he => absurd he List.not_mem_nil
  · rw [hd]
    exact fun e he => absurd he List.not_mem_nil
  · intro k _ _ _
    exact Or.inr ⟨_, List.mem_singleton_self _, List.nil_prefix⟩
  · intro k _
    rw [hreported, List.count_nil, Nat.zero_add]
    exact List.countP_le_length

/-- **The walk against the difference.** A report is the difference of the two slot
maps exactly if the chain holds nothing, or everything the mirror holds a slot for:
beside a trie that is not empty, extra slots are never seen. -/
theorem walk_exact_iff (P : FeltParser) (pedersen : Felt → Felt → Felt) (c : ProofClient)
    (block fuel : Nat) (chain mirror : List (Felt × Felt)) (diff : SlotDiff)
    (hchain : SlotMap chain) (hmirror : SlotMap mirror) (hS : WalkHashing pedersen chain mirror)
    (hc : AnswersFrom P pedersen c block chain)
    (hok : enumerateMissingSlots P pedersen c mirror block fuel = some (.ok diff)) :
    ExactDiff pedersen chain mirror diff ↔
      chain = [] ∨ ∀ e ∈ mirror, ∃ v, (e.1, v) ∈ chain := by
  unfold enumerateMissingSlots at hok
  cases hseed : seed P c block with
  | error e =>
      rw [hseed] at hok
      cases Option.some.inj hok
  | ok start =>
      obtain ⟨chainRoot, nodes, moment⟩ := start
      obtain ⟨rfl, hnodes⟩ := seed_ok hc hseed
      rw [hseed] at hok
      simp only at hok
      split at hok
      · rename_i hroots
        have hnothing : diff.missing = [] ∧ diff.divergent = [] ∧ diff.extra = [] := by
          rw [← Except.ok.inj (Option.some.inj hok)]
          exact ⟨rfl, rfl, rfl⟩
        obtain ⟨hexact, hsub⟩ := exactDiff_of_root_eq hS hchain hmirror hroots hnothing
        exact ⟨fun _ => Or.inr hsub, fun _ => hexact⟩
      · rename_i hroots
        obtain ⟨result, hrounds, hsorted⟩ := Option.map_eq_some_iff.mp hok
        cases result with
        | error e => cases hsorted
        | ok walked =>
            obtain rfl : walked.sort = diff := Except.ok.inj hsorted
            obtain ⟨hsm, hsd, hse, hnm, hnd, hne⟩ := walked.sort_mem
            by_cases hempty : chain = []
            · subst hempty
              have hzero : storageRoot pedersen [] = 0 := by
                rw [storageRoot_eq_root pedersen hchain.slotSet]
                exact root_eq_zero_of_forall fun k _ => rfl
              rw [hzero] at hrounds hroots
              obtain ⟨hm, hd, he⟩ := walkRounds_empty (Ne.symm hroots) hrounds
              rw [List.nil_append, entriesWithPrefix_nil (bitEntries_sorted mirror)] at he
              obtain ⟨hkeys, honce⟩ := mirror_keys hmirror
              refine ⟨fun _ => Or.inl rfl, fun _ => exactDiff_of_lists hS hchain hmirror ?_ ?_ ?_ ?_⟩
              · intro slot v
                rw [hsm, hm]
                simp
              · intro slot ours theirs
                rw [hsd, hd]
                simp
              · intro slot
                rw [hse, he, hkeys]
                simp
              · rw [hnm, hnd, hne, hm, hd, he]
                exact ⟨List.nodup_nil, List.nodup_nil, honce⟩
            · -- the chain has a slot, so nothing is ever called extra
              have hwalked := (Walked.start hchain hempty ⟨rfl, rfl, rfl⟩).rounds hS hmirror.slotSet
                hc hnodes hrounds
              obtain ⟨hm, hd, hmn, hdn⟩ := hwalked.lists hchain hmirror
              have hextra := hwalked.extra
              constructor
              · intro hexact
                right
                intro e he
                by_contra hnone
                have hin := (hexact.extra e.1).mpr ⟨⟨e.2, he⟩, fun w hw => hnone ⟨w, hw⟩⟩
                rw [hse, hextra] at hin
                exact absurd hin List.not_mem_nil
              · rintro (hnil | hsub)
                · exact absurd hnil hempty
                · refine exactDiff_of_lists hS hchain hmirror ?_ ?_ ?_ ?_
                  · intro slot v
                    rw [hsm, hm]
                  · intro slot ours theirs
                    rw [hsd, hd]
                  · intro slot
                    rw [hse, hextra]
                    refine ⟨fun h => absurd h List.not_mem_nil, ?_⟩
                    rintro ⟨⟨v, hv⟩, hnone⟩
                    obtain ⟨w, hw⟩ := hsub _ hv
                    exact absurd hw (hnone w)
                  · rw [hnm, hnd, hne, hextra]
                    exact ⟨hmn, hdn, List.nodup_nil⟩

end

/-! ## A slot beside the chain's edge -/

/-- The chain holds slot `1`. -/
def oneSlot : List (Felt × Felt) := [(1, 5)]

theorem slotMap_oneSlot : SlotMap oneSlot := by
  refine ⟨?_, List.nodup_singleton 1, ?_⟩
  · intro e he
    rw [List.mem_singleton.mp he]
    decide
  · intro e he
    rw [List.mem_singleton.mp he]
    decide

theorem slotMap_twoSlots : SlotMap twoSlots := by
  have hne : (1 : Felt) ≠ highSlot := by decide
  refine ⟨?_, ?_, ?_⟩
  · intro e he
    simp only [twoSlots, List.mem_cons, List.not_mem_nil, or_false] at he
    rcases he with rfl | rfl
    · decide
    · exact highSlot_lt
  · simp [twoSlots, hne]
  · intro e he
    simp only [twoSlots, List.mem_cons, List.not_mem_nil, or_false] at he
    rcases he with rfl | rfl <;> decide

theorem slotFn_oneSlot {k : List Bool} (hk : k.length = TREE_HEIGHT) :
    slotFn oneSlot k = if k = lastBit 250 then 5 else 0 := by
  rw [← keyBits_one]
  exact slotFn_single (by decide) hk

theorem subtreeBodies_oneSlot : subtreeBodies twoPedersen (slotFn oneSlot) ⊆ slotBodies := by
  rintro b ⟨pre, hpre, hb⟩
  have hlen : (lastBit 250).length = TREE_HEIGHT := length_lastBit 250
  have hslot := slotFn_oneSlot hlen
  rw [if_pos rfl] at hslot
  rw [← hlen] at hpre hb
  obtain ⟨t, ht, hne, rfl⟩ := nodeAt_below_single hslot (by decide)
    (fun k hk hne => by rw [slotFn_oneSlot (hk.trans hlen), if_neg hne]) hpre hb
  obtain ⟨m, hm, rfl⟩ := suffix_lastBit ht hne
  exact Or.inl ⟨m, hm, rfl⟩

theorem subtreeBodies_twoSlots : subtreeBodies twoPedersen (slotFn twoSlots) ⊆ slotBodies := by
  rintro b ⟨pre, hpre, hb⟩
  cases pre with
  | nil => exact nodes_twoSlots hb
  | cons c pre =>
      have hheight : TREE_HEIGHT - (c :: pre).length = 250 - pre.length := by
        rw [List.length_cons]
        show 251 - (pre.length + 1) = _
        omega
      rw [hheight] at hb
      obtain ⟨n, hn, rfl⟩ := twoSlots_half (Nat.le_of_succ_le_succ hpre) hb
      exact Or.inl ⟨n, Nat.le_succ_of_le hn, rfl⟩

/-- The endpoint of the one-slot chain: any key runs along its one edge. -/
def oneSlotClient : ProofClient where
  getBlock _ _ := .ok ⟨7, "0x77", "0x76", 0, none, none, []⟩
  getStorageProof _ _ keys :=
    .ok (⟨[⟨"0x1", "0x7c5bc1cc68b7bc8ca2f632de98297e6da9594fa23ede872dd2abeafde353c3d"⟩], some "0x77"⟩,
      if keys.isEmpty then [] else [oneNode])

theorem summary_oneSlot : summary (feltHashing twoPedersen) TREE_HEIGHT (slotFn oneSlot) =
    some ⟨lastBit 250, 5⟩ := by
  rw [← keyBits_one]
  exact summary_slot (by decide) (by decide)

theorem storageRoot_oneSlot : storageRoot twoPedersen oneSlot =
    0x7c5bc1cc68b7bc8ca2f632de98297e6da9594fa23ede872dd2abeafde353c3d := by
  unfold oneSlot
  rw [storageRoot_single (by decide) (by decide)]
  decide

theorem oneSlotClient_answers : AnswersFrom hexParser twoPedersen oneSlotClient 7 oneSlot := by
  have hlen : (lastBit 250).length = TREE_HEIGHT := length_lastBit 250
  have hnode : TrueNode hexParser twoPedersen oneSlot oneNode := by
    refine ⟨0x7c5bc1cc68b7bc8ca2f632de98297e6da9594fa23ede872dd2abeafde353c3d, by decide +kernel,
      .edge 5 (lastBit 250), by decide +kernel, NodeAt.edge summary_oneSlot (lastBit_ne_nil 250), ?_⟩
    exact edge_lastBit.trans (by decide)
  constructor
  · intro moment keys proof raw hanswer n hn
    obtain ⟨-, rfl⟩ := Prod.mk.inj (Except.ok.inj hanswer)
    split at hn
    · exact absurd hn List.not_mem_nil
    · rw [List.mem_singleton.mp hn]
      exact hnode
  · intro moment keys proof raw leaf hanswer hleaf
    obtain ⟨rfl, -⟩ := Prod.mk.inj (Except.ok.inj hanswer)
    obtain rfl := Option.some.inj hleaf
    rw [storageRoot_oneSlot]
    decide

theorem twoSlots_hashing : WalkHashing twoPedersen oneSlot twoSlots :=
  slotBodies_collisionFree.mono (Set.union_subset subtreeBodies_oneSlot subtreeBodies_twoSlots)

/-- Against an empty mirror the one slot of the chain is missing, and that is all. -/
theorem walk_exact_missing : ∃ diff, enumerateMissingSlots hexParser twoPedersen oneSlotClient [] 7 9 =
      some (.ok diff) ∧ diff.missing = [(1, 5)] ∧ ExactDiff twoPedersen oneSlot [] diff := by
  have hrun : (enumerateMissingSlots hexParser twoPedersen oneSlotClient [] 7 9).map
      (fun r => r.toOption.map SlotDiff.missing) = some (some [(1, 5)]) := by
    decide +kernel
  obtain ⟨result, hrun, hmissing⟩ := Option.map_eq_some_iff.mp hrun
  cases result with
  | error e => cases hmissing
  | ok diff =>
      have hempty : SlotMap [] := ⟨fun e he => absurd he List.not_mem_nil, List.nodup_nil,
        fun e he => absurd he List.not_mem_nil⟩
      have hnone : subtreeBodies twoPedersen (slotFn []) ⊆ slotBodies := by
        rintro b ⟨pre, -, hb⟩
        exact absurd hb (not_nodeAt_of_zero fun k _ => rfl)
      refine ⟨diff, hrun, Option.some.inj hmissing, ?_⟩
      exact (walk_exact_iff hexParser twoPedersen oneSlotClient 7 9 oneSlot [] diff slotMap_oneSlot
        hempty (slotBodies_collisionFree.mono (Set.union_subset subtreeBodies_oneSlot hnone))
        oneSlotClient_answers hrun).mpr (Or.inr fun e he => absurd he List.not_mem_nil)

/-- The mirror's second slot hangs beside the chain's edge: the report is clean, and
the roots differ. -/
theorem walk_misses_extra :
    SlotMap oneSlot ∧ SlotMap twoSlots ∧ WalkHashing twoPedersen oneSlot twoSlots ∧
      AnswersFrom hexParser twoPedersen oneSlotClient 7 oneSlot ∧
      ∃ diff, enumerateMissingSlots hexParser twoPedersen oneSlotClient twoSlots 7 9 =
          some (.ok diff) ∧
        diff.isClean = true ∧ storageRoot twoPedersen oneSlot ≠ storageRoot twoPedersen twoSlots ∧
          ¬ ExactDiff twoPedersen oneSlot twoSlots diff := by
  have hrun : (enumerateMissingSlots hexParser twoPedersen oneSlotClient twoSlots 7 9).map
      (fun r => r.toOption.map SlotDiff.isClean) = some (some true) := by
    unfold enumerateMissingSlots
    rw [bitEntries_twoSlots, storageRoot_twoSlots]
    decide +kernel
  have hroots : storageRoot twoPedersen oneSlot ≠ storageRoot twoPedersen twoSlots := by
    rw [storageRoot_oneSlot, storageRoot_twoSlots]
    decide
  obtain ⟨result, hrun, hclean⟩ := Option.map_eq_some_iff.mp hrun
  cases result with
  | error e => cases hclean
  | ok diff =>
      have hdiff : diff.isClean = true := Option.some.inj hclean
      refine ⟨slotMap_oneSlot, slotMap_twoSlots, twoSlots_hashing, oneSlotClient_answers, diff, hrun,
        hdiff, hroots, ?_⟩
      intro hexact
      exact hroots (hexact.clean.mp hdiff)

end Strk20.Indexer.TrieWalk
