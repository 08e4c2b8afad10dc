import Strk20.Foundation.Tables
import Strk20.Feed.TrieUpdate

/-!
# The cached trie computes `storage_root`

`CachedTrie.Valid` ties the node tree to the slot table beside it: the tree is
well formed and both hold the same slots. Every update and every trip through
the cache format keeps it, so along a whole run each accepted slot set is
answered with its `storage_root`.

- `decode_encode`: the cache format restores the trie exactly.
- `update_accepted`, `update_rejected`: one call.
- `Run`: states reachable by any sequence of calls and round trips.
-/

namespace Strk20.Feed.Trie

open BitPath Strk20.Lists Bytes Tables Mpt Patricia Node
open Std (ExtTreeMap)

variable {pedersen : Felt → Felt → Felt}

/-! ## The cache format -/

/-- The slot table `values` holds exactly the slots of `f`. -/
def Holds (values : ExtTreeMap Key Felt) (f : List Bool → Felt) : Prop :=
  ∀ (k : Key) (v : Felt), values[k]? = some v ↔ k.val < 2 ^ 251 ∧ v ≠ 0 ∧ f (kbits k) = v

theorem Holds.unique {a b : ExtTreeMap Key Felt} {f : List Bool → Felt} (ha : Holds a f)
    (hb : Holds b f) : a = b := by
  refine ExtTreeMap.ext_getElem? fun {k} => Option.ext fun v => ?_
  rw [ha k v, hb k v]

theorem keyOfBytes_beBytes {n : Nat} (h : n < 2 ^ 256) :
    (keyOfBytes (beBytes 32 n)).val = n := by
  simp only [keyOfBytes, Fin.val_ofNat, beNat_beBytes]
  omega

theorem keyOfBytes_key (k : Key) : keyOfBytes (beBytes 32 k.val) = k :=
  Fin.ext (keyOfBytes_beBytes k.isLt)

theorem fromBytesBe_keyOfBytes (f : Felt) : fromBytesBe (keyOfBytes (beBytes 32 f.val)) = f := by
  have h := keyOfBytes_beBytes (n := f.val) (toBytesBe f).isLt
  apply Fin.ext
  simp [fromBytesBe, h]

theorem isTrieKey_fromBytesBe {k : Key} (h : k.val < 2 ^ 251) : isTrieKey (fromBytesBe k) = true := by
  rw [isTrieKey_iff, fromBytesBe_val_of_lt h]
  exact h

/-- `values` after the slots of `n` have been added to those of `f`. -/
def addSlots (f g : List Bool → Felt) (ks : List Bool) : Felt :=
  if g ks = 0 then f ks else g ks

/-- **Nodes round-trip.** Reading the encoding of a well-formed node gives the
node back and adds its slots to the table. The table must not hold any of them
yet, as a key seen twice is rejected. -/
theorem decodeNode_encode {pre : List Bool} {n : Node} (h : Wf pedersen pre n) :
    ∀ (fuel minDepth : Nat) {values : ExtTreeMap Key Felt} {f : List Bool → Felt}
      (rest : List UInt8), 252 ≤ pre.length + fuel → minDepth ≤ pre.length → Holds values f →
      (∀ ks, n.get ks ≠ 0 → f ks = 0) →
      ∃ values', decodeNode fuel (n.encode ++ rest) minDepth values = some (n, rest, values') ∧
        Holds values' (addSlots f n.get) := by
  induction h with
  | @leaf pre key value hv hk hpre =>
      intro fuel minDepth values f rest hfuel _ hvalues hfresh
      have hlen : pre.length ≤ 251 := by simpa using hpre.length_le
      obtain ⟨fuel, rfl⟩ : ∃ m, fuel = m + 1 := ⟨fuel - 1, by omega⟩
      have hnew : values.contains key = false := by
        have hf : f (kbits key) = 0 := hfresh _ (by simpa [Node.get] using hv)
        refine (contains_eq_false_iff _ _).mpr (Option.eq_none_iff_forall_ne_some.mpr ?_)
        intro v hsome
        obtain ⟨-, hnz, hfv⟩ := (hvalues key v).mp hsome
        exact hnz (hfv.symm.trans hf)
      refine ⟨values.insert key value, ?_, ?_⟩
      · have htag : take 1 ((Node.leaf key value).encode ++ rest) =
            some ([0], beBytes 32 key.val ++ (beBytes 32 value.val ++ rest)) := by
          simp [Node.encode, take]
        have hguard : (value = 0 || !isTrieKey (fromBytesBe key) || values.contains key) = false := by
          simp [hv, isTrieKey_fromBytesBe hk, hnew]
        simp only [decodeNode, htag, Option.bind_eq_bind, Option.bind_some, if_true, take_beBytes,
          keyOfBytes_key, fromBytesBe_keyOfBytes, hguard, Bool.false_eq_true, if_false]
      · intro k v
        rw [getElem?_insert_eq]
        by_cases hkey : k = key
        · subst hkey
          simp only [if_true, Option.some.injEq, addSlots, Node.get, if_neg hv]
          constructor
          · rintro rfl
            exact ⟨hk, hv, rfl⟩
          · exact fun h => h.2.2
        · rw [if_neg hkey, hvalues k v]
          refine and_congr_right fun hk' => ?_
          have hne : kbits k ≠ kbits key := fun h => hkey (kbits_inj hk' hk h)
          simp [addSlots, Node.get, hne]
  | @branch pre q left right hpq hq hl hr ihl ihr =>
      intro fuel minDepth values f rest hfuel hmin hvalues hfresh
      have hple := hpq.length_le
      obtain ⟨fuel, rfl⟩ : ∃ m, fuel = m + 1 := ⟨fuel - 1, by omega⟩
      generalize hhash : binaryHash pedersen (left.hashAt pedersen (q.length + 1))
        (right.hashAt pedersen (q.length + 1)) = hash
      rw [hhash] at hfresh
      set n : Node := .branch left.key q.length hash left right with hn
      have hget : ∀ ks, n.get ks = if bitAt ks q.length then right.get ks else left.get ks :=
        fun ks => rfl
      -- each child's slots are slots of the branch, and the sides are disjoint
      have hleft : ∀ ks, left.get ks ≠ 0 → bitAt ks q.length = false := by
        intro ks hne
        by_contra hb
        refine hne (hl.get_eq_zero fun hp => hb (bitAt_of_pre hp))
      have hright : ∀ ks, right.get ks ≠ 0 → bitAt ks q.length = true := by
        intro ks hne
        by_contra hb
        refine hne (hr.get_eq_zero fun hp => hb (bitAt_of_pre hp))
      obtain ⟨vl, hdl, hvl⟩ := ihl fuel (q.length + 1) (right.encode ++ rest) (by simp; omega) (by simp) hvalues
        (fun ks hne => hfresh ks (by rw [hget, hleft ks hne]; simpa using hne))
      obtain ⟨vr, hdr, hvr⟩ := ihr fuel (q.length + 1) rest (by simp; omega) (by simp) hvl
        (fun ks hne => by
          have hl0 : left.get ks = 0 := by
            by_contra hne'
            exact absurd (hleft ks hne') (by simp [hright ks hne])
          rw [addSlots, if_pos hl0]
          exact hfresh ks (by rw [hget, hright ks hne]; simpa using hne))
      refine ⟨vr, ?_, ?_⟩
      · have htag : take 1 (n.encode ++ rest) = some ([1], beBytes 2 q.length ++
            (beBytes 32 hash.val ++ (left.encode ++ (right.encode ++ rest)))) := by
          simp [hn, Node.encode, take]
        have hdepth : beNat (beBytes 2 q.length) = q.length := by
          rw [beNat_beBytes, Nat.mod_eq_of_lt (by omega)]
        have hguard : (q.length < minDepth || 251 ≤ q.length) = false := by simp; omega
        have hne : ([1] : List UInt8) ≠ [0] := by decide
        simp only [decodeNode, htag, Option.bind_eq_bind, Option.bind_some, if_neg hne, if_true,
          take_beBytes, hdepth, hguard, Bool.false_eq_true, if_false, fromBytesBe_keyOfBytes, hdl,
          hdr]
        rfl
      · have hslots : addSlots (addSlots f left.get) right.get = addSlots f n.get := by
          funext ks
          simp only [addSlots, hget]
          cases hb : bitAt ks q.length with
          | true =>
              have hl0 : left.get ks = 0 := by
                by_contra hne
                exact absurd (hleft ks hne) (by simp [hb])
              simp [hl0]
          | false =>
              have hr0 : right.get ks = 0 := by
                by_contra hne
                exact absurd (hright ks hne) (by simp [hb])
              simp [hr0]
        rwa [hslots] at hvr

/-! ## The invariant of the trie -/

namespace CachedTrie

/-- The tree is well formed and the table beside it holds the same slots. -/
structure Valid (pedersen : Felt → Felt → Felt) (t : CachedTrie) : Prop where
  wf : WfRoot pedersen [] t.root
  holds : Holds t.values (getRoot t.root)

theorem holds_empty : Holds (∅ : ExtTreeMap Key Felt) fun _ => 0 := by
  intro k v
  simp only [ExtTreeMap.getElem?_empty, reduceCtorEq, false_iff]
  exact fun h => h.2.1 h.2.2.symm

theorem valid_default (pedersen : Felt → Felt → Felt) : Valid pedersen default where
  wf := wfRoot_none []
  holds := holds_empty

theorem Valid.rootHash_eq {t : CachedTrie} (h : Valid pedersen t) :
    t.rootHash pedersen = Patricia.root (feltHashing pedersen) TREE_HEIGHT (getRoot t.root) := by
  obtain ⟨hwf, -⟩ := h
  cases hr : t.root with
  | none =>
      rw [root_eq_zero_of_forall (f := getRoot none) fun k _ => rfl]
      simp [rootHash, hr]
  | some n =>
      rw [hr] at hwf
      have hhash := (wfRoot_some.mp hwf).hashAt_eq_root
      rw [List.length_nil, below_nil] at hhash
      simp only [rootHash, hr]
      exact hhash

/-- **The cache format restores the trie.** -/
theorem decode_encode {t : CachedTrie} (h : Valid pedersen t) :
    CachedTrie.decode t.encode = .ok t := by
  obtain ⟨hwf, hholds⟩ := h
  obtain ⟨root, values⟩ := t
  cases root with
  | none =>
      have hv : values = ∅ := hholds.unique holds_empty
      subst hv
      rfl
  | some n =>
      obtain ⟨values', hdec, hholds'⟩ := decodeNode_encode (wfRoot_some.mp hwf)
        252 0 [] (by simp) (by simp) holds_empty (fun _ _ => rfl)
      have hv : values' = values := by
        refine hholds'.unique ?_
        have hadd : addSlots (fun _ => 0) n.get = n.get := by
          funext ks
          by_cases h0 : n.get ks = 0 <;> simp [addSlots, h0]
        rw [hadd]
        exact hholds
      have hne : n.encode.isEmpty = false := by cases n <;> rfl
      rw [List.append_nil] at hdec
      simp only [CachedTrie.decode, CachedTrie.encode, hne, Bool.false_eq_true, if_false, hdec, hv]

/-! ## Collecting the new slot set -/

/-- `next` holds the nonzero entries of a list. -/
def Collected (entries : List (Felt × Felt)) (next : ExtTreeMap Key Felt) : Prop :=
  ∀ (k : Key) (v : Felt), next[k]? = some v ↔ v ≠ 0 ∧ ∃ f, k = toBytesBe f ∧ (f, v) ∈ entries

theorem collected_nil : Collected [] ∅ := by
  intro k v
  simp

/-- One entry on top of a collected list: accepted exactly when its key fits
the trie and, if its value is nonzero, is new. -/
theorem collectStep_ok {entries : List (Felt × Felt)} {next : ExtTreeMap Key Felt}
    {e : Felt × Felt} (h : Collected entries next) (hk : e.1.val < 2 ^ 251)
    (hnew : e.2 ≠ 0 → ∀ v, v ≠ 0 → (e.1, v) ∉ entries) :
    ∃ next', collectStep next e = .ok next' ∧ Collected (entries ++ [e]) next' := by
  obtain ⟨f, w⟩ := e
  have htk : isTrieKey f = true := (isTrieKey_iff f).mpr hk
  by_cases hw : w = 0
  · refine ⟨next, by simp [collectStep, htk, hw], fun k v => ?_⟩
    rw [h k v]
    refine and_congr_right fun hv => exists_congr fun g => and_congr_right fun _ => ?_
    have hne : (g, v) ≠ (f, w) := fun heq => hv ((Prod.mk.inj heq).2.trans hw)
    simp [hne]
  · have hfresh : next.contains (toBytesBe f) = false := by
      refine (contains_eq_false_iff _ _).mpr (Option.eq_none_iff_forall_ne_some.mpr fun v hv => ?_)
      obtain ⟨hnz, g, hg, hmem⟩ := (h _ v).mp hv
      rw [← toBytesBe_inj.mp hg] at hmem
      exact hnew hw v hnz hmem
    refine ⟨next.insert (toBytesBe f) w, by simp [collectStep, htk, hw, hfresh], fun k v => ?_⟩
    rw [getElem?_insert_eq]
    by_cases hkf : k = toBytesBe f
    · rw [if_pos hkf, Option.some.injEq]
      constructor
      · rintro rfl
        exact ⟨hw, f, hkf, by simp⟩
      · rintro ⟨hv, g, hg, hmem⟩
        obtain rfl := toBytesBe_inj.mp (hkf.symm.trans hg)
        rcases List.mem_append.mp hmem with hold | hlast
        · exact absurd hold (hnew hw v hv)
        · exact (Prod.mk.inj (List.mem_singleton.mp hlast)).2.symm
    · rw [if_neg hkf, h k v]
      refine and_congr_right fun hv => exists_congr fun g => and_congr_right fun hg => ?_
      have hne : (g, v) ≠ (f, w) := fun heq => hkf (hg.trans (by rw [(Prod.mk.inj heq).1]))
      simp [hne]

/-- An accepted entry met the two conditions. -/
theorem collectStep_inv {next next' : ExtTreeMap Key Felt} {e : Felt × Felt}
    (h : collectStep next e = .ok next') :
    e.1.val < 2 ^ 251 ∧ (e.2 ≠ 0 → next.contains (toBytesBe e.1) = false) := by
  unfold collectStep at h
  by_cases htk : isTrieKey e.1 = true
  · refine ⟨(isTrieKey_iff e.1).mp htk, fun hw => ?_⟩
    cases hc : next.contains (toBytesBe e.1) with
    | false => rfl
    | true =>
        have : toBytesBe e.1 ∈ next := ExtTreeMap.contains_iff_mem.mp hc
        simp [htk, hw, this] at h
  · simp [htk] at h

/-- Every slot set is accepted and collected as it is. -/
theorem foldlM_collectStep : ∀ {entries : List (Felt × Felt)} (seen : List (Felt × Felt))
    {next : ExtTreeMap Key Felt}, SlotSet (seen ++ entries) → Collected seen next →
      ∃ next', entries.foldlM collectStep next = .ok next' ∧ Collected (seen ++ entries) next'
  | [], seen, next, _, h => ⟨next, rfl, by simpa using h⟩
  | e :: entries, seen, next, hset, h => by
      have hsplit : seen ++ e :: entries = (seen ++ [e]) ++ entries := by simp
      have hnew : e.2 ≠ 0 → ∀ v, v ≠ 0 → (e.1, v) ∉ seen := by
        intro hw v hv hmem
        have hnd := hset.nodup
        rw [List.filter_append, List.map_append, List.nodup_append] at hnd
        refine hnd.2.2 e.1 ?_ e.1 ?_ rfl
        · exact List.mem_map.mpr ⟨(e.1, v), List.mem_filter.mpr ⟨hmem, by simpa using hv⟩, rfl⟩
        · exact List.mem_map.mpr ⟨e, List.mem_filter.mpr ⟨by simp, by simpa using hw⟩, rfl⟩
      obtain ⟨next', hstep, hcol⟩ := collectStep_ok h (hset.isTrieKey e (by simp)) hnew
      rw [hsplit] at hset ⊢
      obtain ⟨next'', hrest, hcol'⟩ := foldlM_collectStep _ hset hcol
      refine ⟨next'', ?_, hcol'⟩
      rw [List.foldlM_cons, hstep]
      exact hrest

theorem slotSet_snoc {entries : List (Felt × Felt)} {e : Felt × Felt} (h : SlotSet entries)
    (hk : e.1.val < 2 ^ 251) (hnew : e.2 ≠ 0 → ∀ v, v ≠ 0 → (e.1, v) ∉ entries) :
    SlotSet (entries ++ [e]) where
  isTrieKey := fun e' he' => by
    rcases List.mem_append.mp he' with hmem | hmem
    · exact h.isTrieKey e' hmem
    · rw [List.mem_singleton.mp hmem]
      exact hk
  nodup := by
    rw [List.filter_append, List.map_append, List.nodup_append]
    refine ⟨h.nodup, ?_, ?_⟩
    · by_cases hw : e.2 = 0 <;> simp [List.filter, hw]
    · rintro a ha b hb rfl
      obtain ⟨e₁, he₁, rfl⟩ := List.mem_map.mp ha
      obtain ⟨e₂, he₂, heq⟩ := List.mem_map.mp hb
      obtain ⟨hin₁, hnz₁⟩ := List.mem_filter.mp he₁
      obtain ⟨hin₂, hnz₂⟩ := List.mem_filter.mp he₂
      obtain rfl := List.mem_singleton.mp hin₂
      refine hnew (by simpa using hnz₂) e₁.2 (by simpa using hnz₁) ?_
      rw [heq]
      exact hin₁

/-- Only slot sets are accepted. -/
theorem slotSet_of_foldlM : ∀ {entries : List (Felt × Felt)} (seen : List (Felt × Felt))
    {next next' : ExtTreeMap Key Felt}, entries.foldlM collectStep next = .ok next' → SlotSet seen → Collected seen next →
      SlotSet (seen ++ entries)
  | [], seen, _, _, _, hset, _ => by simpa using hset
  | e :: entries, seen, next, next', hok, hset, hcol => by
      rw [List.foldlM_cons] at hok
      cases hstep : collectStep next e with
      | error err =>
          rw [hstep] at hok
          exact absurd hok (by simp [bind, Except.bind])
      | ok mid =>
          obtain ⟨hk, hfresh⟩ := collectStep_inv hstep
          have hnew : e.2 ≠ 0 → ∀ v, v ≠ 0 → (e.1, v) ∉ seen := by
            intro hw v hv hmem
            have hsome := (hcol (toBytesBe e.1) v).mpr ⟨hv, e.1, rfl, hmem⟩
            have hnone := (contains_eq_false_iff _ _).mp (hfresh hw)
            rw [hsome] at hnone
            exact absurd hnone (by simp)
          obtain ⟨mid', hstep', hcol'⟩ := collectStep_ok hcol hk hnew
          obtain rfl : mid = mid' := Except.ok.inj (hstep.symm.trans hstep')
          rw [hstep] at hok
          have := slotSet_of_foldlM _ hok (slotSet_snoc hset hk hnew) hcol'
          simpa using this

theorem slotSet_of_collect {entries : List (Felt × Felt)} {next : ExtTreeMap Key Felt}
    (h : collect entries = .ok next) : SlotSet entries := by
  have := slotSet_of_foldlM [] h ⟨by simp, by simp⟩ collected_nil
  simpa using this

theorem collect_ok {entries : List (Felt × Felt)} (h : SlotSet entries) :
    ∃ next, collect entries = .ok next ∧ Collected entries next := by
  obtain ⟨next, hok, hcol⟩ := foldlM_collectStep [] (by simpa using h) collected_nil
  exact ⟨next, hok, by simpa using hcol⟩

/-- A collected slot set holds the slots of its entries. -/
theorem Collected.holds {entries : List (Felt × Felt)} {next : ExtTreeMap Key Felt}
    (hset : SlotSet entries) (h : Collected entries next) : Holds next (slotFn entries) := by
  intro k v
  rw [h k v]
  constructor
  · rintro ⟨hv, f, rfl, hmem⟩
    have hf := hset.isTrieKey _ hmem
    refine ⟨hf, hv, ?_⟩
    rw [kbits_toBytesBe, slotFn_keyBits hf]
    exact (slotValue_eq_iff hset hv).mpr hmem
  · rintro ⟨hk, hv, hslot⟩
    have hkey : k = toBytesBe (fromBytesBe k) :=
      Fin.ext (fromBytesBe_val_of_lt hk).symm
    refine ⟨hv, fromBytesBe k, hkey, ?_⟩
    have hlt : (fromBytesBe k).val < 2 ^ 251 := by
      rw [fromBytesBe_val_of_lt hk]
      exact hk
    rw [hkey, kbits_toBytesBe, slotFn_keyBits hlt] at hslot
    exact (slotValue_eq_iff hset hv).mp hslot

/-! ## Writing the difference -/

theorem wrote_insertSlot {root : Option Node} {e : Key × Felt} (h : WfRoot pedersen [] root)
    (hk : e.1.val < 2 ^ 251) (hv : e.2 ≠ 0) :
    Wrote pedersen [] e.1 e.2 (getRoot root) (insertSlot pedersen root e) := by
  cases root with
  | some n => exact update_spec e.2 (wfRoot_some.mp h) hk List.nil_prefix
  | none =>
      refine ⟨wfRoot_some.mpr (.leaf hv hk List.nil_prefix), fun ks _ => ?_⟩
      simp [Node.get, insertSlot]

theorem wrote_removeSlot {root : Option Node} {key : Key} (h : WfRoot pedersen [] root)
    (hk : key.val < 2 ^ 251) :
    Wrote pedersen [] key 0 (getRoot root) (removeSlot pedersen root key) := by
  cases root with
  | some n => exact update_spec 0 (wfRoot_some.mp h) hk List.nil_prefix
  | none =>
      refine ⟨wfRoot_none [], fun ks _ => ?_⟩
      simp [removeSlot]

/-- A run of slot writes with distinct keys: each written slot has its value,
every other slot is untouched. -/
theorem foldl_writes {γ : Type} (step : Option Node → γ → Option Node) (key : γ → Key)
    (value : γ → Felt) : ∀ (writes : List γ) {root : Option Node}, WfRoot pedersen [] root →
    (∀ w ∈ writes, ∀ root, WfRoot pedersen [] root →
      Wrote pedersen [] (key w) (value w) (getRoot root) (step root w)) →
    (∀ w ∈ writes, (key w).val < 2 ^ 251) → writes.Pairwise (fun a b => key a ≠ key b) →
      WfRoot pedersen [] (writes.foldl step root) ∧
      (∀ w ∈ writes, getRoot (writes.foldl step root) (kbits (key w)) = value w) ∧
      ∀ ks, ks.length = 251 → (∀ w ∈ writes, ks ≠ kbits (key w)) →
        getRoot (writes.foldl step root) ks = getRoot root ks
  | [], root, hwf, _, _, _ => ⟨hwf, by simp, fun _ _ _ => rfl⟩
  | w :: writes, root, hwf, hstep, hkeys, hne => by
      obtain ⟨hw, hws⟩ := List.pairwise_cons.mp hne
      obtain ⟨hwf', hget⟩ := hstep w List.mem_cons_self root hwf
      obtain ⟨hfin, hval, hframe⟩ := foldl_writes step key value writes hwf'
        (fun w' hw' => hstep w' (List.mem_cons_of_mem _ hw'))
        (fun w' hw' => hkeys w' (List.mem_cons_of_mem _ hw')) hws
      refine ⟨hfin, ?_, ?_⟩
      · intro w' hw'
        rcases List.mem_cons.mp hw' with rfl | hmem
        · -- later writes have other keys
          have hother : ∀ v ∈ writes, kbits (key w') ≠ kbits (key v) := fun v hv hbits =>
            hw v hv (kbits_inj (hkeys w' List.mem_cons_self)
              (hkeys v (List.mem_cons_of_mem _ hv)) hbits)
          rw [List.foldl_cons, hframe _ (by simp) hother, hget _ (by simp), if_pos rfl]
        · exact hval w' hmem
      · intro ks hks hother
        rw [List.foldl_cons, hframe ks hks fun v hv => hother v (List.mem_cons_of_mem _ hv),
          hget ks hks, if_neg (hother w List.mem_cons_self)]

/-- Changing and removing slots until the tree holds `next`. -/
theorem diff_spec {root : Option Node} {values next : ExtTreeMap Key Felt}
    {f : List Bool → Felt} (hwf : WfRoot pedersen [] root) (hvalues : Holds values (getRoot root))
    (hnext : Holds next f) :
    let changed := next.toList.filter fun e => values[e.1]? ≠ some e.2
    let gone := values.keys.filter fun k => !next.contains k
    let root' := gone.foldl (removeSlot pedersen) (changed.foldl (insertSlot pedersen) root)
    WfRoot pedersen [] root' ∧ ∀ k : Key, k.val < 2 ^ 251 → getRoot root' (kbits k) = f (kbits k) := by
  intro changed gone root'
  have hchanged : ∀ e, e ∈ changed ↔ next[e.1]? = some e.2 ∧ values[e.1]? ≠ some e.2 := by
    intro e
    simp only [changed, List.mem_filter, decide_eq_true_eq]
    rw [← ExtTreeMap.mem_toList_iff_getElem?_eq_some (t := next)]
  have hgone : ∀ k, k ∈ gone ↔ k ∈ values ∧ next[k]? = none := by
    intro k
    simp only [gone, List.mem_filter, ExtTreeMap.mem_keys, Bool.not_eq_true',
      contains_eq_false_iff]
  have hck : ∀ e ∈ changed, e.1.val < 2 ^ 251 ∧ e.2 ≠ 0 := fun e he => by
    have := (hnext e.1 e.2).mp ((hchanged e).mp he).1
    exact ⟨this.1, this.2.1⟩
  have hgk : ∀ k ∈ gone, k.val < 2 ^ 251 := fun k hk => by
    have hmem := ((hgone k).mp hk).1
    rw [ExtTreeMap.mem_iff_isSome_getElem?] at hmem
    obtain ⟨v, hv⟩ := Option.isSome_iff_exists.mp hmem
    exact ((hvalues k v).mp hv).1
  obtain ⟨hwf₁, hval₁, hframe₁⟩ := foldl_writes (insertSlot pedersen) Prod.fst Prod.snd
    changed hwf
    (fun e he root hr => wrote_insertSlot hr (hck e he).1 (hck e he).2)
    (fun e he => (hck e he).1) ((toList_keys_ne next).filter _)
  obtain ⟨hwf₂, hval₂, hframe₂⟩ := foldl_writes (removeSlot pedersen) id (fun _ => 0) gone hwf₁
    (fun k hk root hr => wrote_removeSlot hr (hgk k hk)) hgk
    (ExtTreeMap.nodup_keys.filter _)
  refine ⟨hwf₂, fun k hk => ?_⟩
  have hbits : ∀ k' : Key, k'.val < 2 ^ 251 → kbits k = kbits k' → k = k' :=
    fun k' hk' => kbits_inj hk hk'
  -- what the old table and the new table say about `k`
  cases hn : next[k]? with
  | some v =>
      have hfk : f (kbits k) = v := ((hnext k v).mp hn).2.2
      have hkeep : ∀ k' ∈ gone, kbits k ≠ kbits (id k') := fun k' hk' heq => by
        have := ((hgone k').mp hk').2
        rw [← hbits k' (hgk k' hk') heq, hn] at this
        exact absurd this (by simp)
      rw [hframe₂ _ (by simp) hkeep, hfk]
      by_cases hold : values[k]? = some v
      · -- an unchanged slot is in neither list
        have hskip : ∀ e ∈ changed, kbits k ≠ kbits e.1 := fun e he heq => by
          obtain ⟨h₁, h₂⟩ := (hchanged e).mp he
          rw [← hbits e.1 (hck e he).1 heq] at h₁ h₂
          rw [hn, Option.some.injEq] at h₁
          exact h₂ (h₁ ▸ hold)
        rw [hframe₁ _ (by simp) hskip]
        exact ((hvalues k v).mp hold).2.2
      · exact hval₁ (k, v) ((hchanged (k, v)).mpr ⟨hn, hold⟩)
  | none =>
      have hfk : f (kbits k) = 0 := by
        by_contra hne
        have := (hnext k _).mpr ⟨hk, hne, rfl⟩
        rw [hn] at this
        exact absurd this (by simp)
      rw [hfk]
      by_cases hold : k ∈ values
      · exact hval₂ k ((hgone k).mpr ⟨hold, hn⟩)
      · -- a slot neither table has was zero and stays so
        have hkeep : ∀ k' ∈ gone, kbits k ≠ kbits (id k') := fun k' hk' heq =>
          hold (hbits k' (hgk k' hk') heq ▸ ((hgone k').mp hk').1)
        have hskip : ∀ e ∈ changed, kbits k ≠ kbits e.1 := fun e he heq => by
          have h₁ := ((hchanged e).mp he).1
          rw [← hbits e.1 (hck e he).1 heq, hn] at h₁
          exact absurd h₁ (by simp)
        rw [hframe₂ _ (by simp) hkeep, hframe₁ _ (by simp) hskip]
        by_contra hne
        have hv := (hvalues k _).mpr ⟨hk, hne, rfl⟩
        exact hold (ExtTreeMap.mem_iff_isSome_getElem?.mpr (by rw [hv]; rfl))

/-- The first tree, built from a whole slot set. -/
theorem build_toList_spec {next : ExtTreeMap Key Felt} {f : List Bool → Felt}
    (hnext : Holds next f) (hne : next.toList ≠ []) :
    WfRoot pedersen [] (Node.build pedersen 251 next.toList 0) ∧ ∀ k : Key, k.val < 2 ^ 251 →
      getRoot (Node.build pedersen 251 next.toList 0) (kbits k) = f (kbits k) := by
  have hslot : ∀ e ∈ next.toList, e.1.val < 2 ^ 251 ∧ e.2 ≠ 0 ∧ f (kbits e.1) = e.2 :=
    fun e he => (hnext e.1 e.2).mp (ExtTreeMap.mem_toList_iff_getElem?_eq_some.mp he)
  have hbuild : Buildable [] next.toList :=
    ⟨(ExtTreeMap.ordered_keys_toList (t := next)).imp fun {a b} h => by
        have hlt : compare a.1.val b.1.val = .lt := h
        exact Nat.compare_eq_lt.mp hlt,
      fun e he => ⟨(hslot e he).2.1, (hslot e he).1, List.nil_prefix⟩⟩
  obtain ⟨n, hn, hwf, hget⟩ := @build_spec pedersen 251 _ _ hbuild hne (by simp)
  rw [List.length_nil] at hn
  rw [hn]
  refine ⟨wfRoot_some.mpr hwf, fun k hk => ?_⟩
  rw [getRoot_some, hget _ (by simp)]
  by_cases hf : f (kbits k) = 0
  · rw [hf]
    refine assoc_eq_zero_of_not_mem fun hmem => ?_
    simp only [entryBits, List.map_map, List.mem_map, Function.comp_apply] at hmem
    obtain ⟨e, he, hbits⟩ := hmem
    obtain ⟨-, hnz, hfe⟩ := hslot e he
    rw [hbits] at hfe
    exact hnz (hfe.symm.trans hf)
  · have hmem : (k, f (kbits k)) ∈ next.toList :=
      ExtTreeMap.mem_toList_iff_getElem?_eq_some.mpr ((hnext k _).mpr ⟨hk, hf, rfl⟩)
    refine assoc_of_mem ?_ (List.mem_map.mpr ⟨_, hmem, rfl⟩)
    simp only [entryBits, List.map_map, List.Nodup, List.pairwise_map, Function.comp_apply]
    exact (toList_keys_ne next).imp_of_mem fun {a b} ha hb hab hbits =>
      hab (kbits_inj (hslot a ha).1 (hslot b hb).1 hbits)

/-! ## One call -/

theorem holds_of_agree {next : ExtTreeMap Key Felt} {f g : List Bool → Felt} (h : Holds next f)
    (hfg : ∀ k : Key, k.val < 2 ^ 251 → g (kbits k) = f (kbits k)) : Holds next g := by
  intro k v
  rw [h k v]
  refine and_congr_right fun hk => ?_
  rw [hfg k hk]

/-- A slot set is accepted, answered with its root and held afterwards. -/
theorem update_accepted {t : CachedTrie} (ht : Valid pedersen t) {entries : List (Felt × Felt)}
    (h : SlotSet entries) :
    (t.update pedersen entries).1 = .ok (storageRoot pedersen entries) ∧
      Valid pedersen (t.update pedersen entries).2 := by
  obtain ⟨next, hcol, hnext⟩ := collect_ok h
  have hholds := hnext.holds h
  obtain ⟨root', hupd, hwf, hagree⟩ : ∃ root',
      t.update pedersen entries =
        (.ok ((⟨root', next⟩ : CachedTrie).rootHash pedersen), ⟨root', next⟩) ∧
      WfRoot pedersen [] root' ∧ ∀ k : Key, k.val < 2 ^ 251 →
        getRoot root' (kbits k) = slotFn entries (kbits k) := by
    obtain ⟨root, values⟩ := t
    cases root with
    | some root =>
        exact ⟨_, by simp only [CachedTrie.update, hcol], diff_spec ht.wf ht.holds hholds⟩
    | none =>
        by_cases hempty : next.isEmpty = true
        · refine ⟨none, by simp only [CachedTrie.update, hcol, if_pos hempty], wfRoot_none [], ?_⟩
          intro k hk
          obtain rfl := ExtTreeMap.isEmpty_iff.mp hempty
          by_contra hne
          have := (hholds k _).mpr ⟨hk, Ne.symm hne, rfl⟩
          simp at this
        · refine ⟨_, by simp only [CachedTrie.update, hcol, if_neg hempty],
            build_toList_spec hholds fun hnil => hempty ?_⟩
          rw [← ExtTreeMap.isEmpty_toList, hnil]
          rfl
  have hvalid : Valid pedersen ⟨root', next⟩ := ⟨hwf, holds_of_agree hholds hagree⟩
  rw [hupd]
  refine ⟨?_, hvalid⟩
  rw [hvalid.rootHash_eq, storageRoot_eq_root pedersen h]
  refine congrArg Except.ok (root_congr fun bits hbits => ?_)
  have hkb : kbits (toBytesBe (bitsToFelt bits)) = bits := by
    rw [kbits_toBytesBe, keyBits_bitsToFelt hbits]
  have := hagree (toBytesBe (bitsToFelt bits)) (bitsToFelt_lt hbits)
  rwa [hkb] at this

/-- A rejected call leaves everything as it was. -/
theorem update_rejected {t : CachedTrie} {entries : List (Felt × Felt)} {e : FeedError}
    (h : (t.update pedersen entries).1 = .error e) : (t.update pedersen entries).2 = t := by
  unfold CachedTrie.update at h ⊢
  cases hc : collect entries with
  | error e' => rfl
  | ok next =>
      rw [hc] at h
      exact absurd h (by simp)

/-- Whatever the entries, the invariant survives the call. -/
theorem valid_update {t : CachedTrie} (ht : Valid pedersen t) (entries : List (Felt × Felt)) :
    Valid pedersen (t.update pedersen entries).2 := by
  cases hc : collect entries with
  | error e =>
      have : (t.update pedersen entries).2 = t :=
        update_rejected (e := e) (by simp only [CachedTrie.update, hc])
      rw [this]
      exact ht
  | ok next => exact (update_accepted ht (slotSet_of_collect hc)).2

/-! ## Whole runs -/

/-- What a holder of the trie does with it. -/
inductive Op where
  | update (entries : List (Felt × Felt))
  | restore

/-- `restore` goes through the cache format and stops the run if it does not
come back. -/
def step (pedersen : Felt → Felt → Felt) (t : CachedTrie) : Op → Except FeedError CachedTrie
  | .update entries => .ok (t.update pedersen entries).2
  | .restore => CachedTrie.decode t.encode

def run (pedersen : Felt → Felt → Felt) (ops : List Op) : Except FeedError CachedTrie :=
  ops.foldlM (step pedersen) default

theorem valid_step {t : CachedTrie} (ht : Valid pedersen t) (op : Op) :
    ∃ t', step pedersen t op = .ok t' ∧ Valid pedersen t' := by
  cases op with
  | update entries => exact ⟨_, rfl, valid_update ht entries⟩
  | restore => exact ⟨t, decode_encode ht, ht⟩

theorem valid_foldlM : ∀ (ops : List Op) {t : CachedTrie}, Valid pedersen t →
    ∃ t', ops.foldlM (step pedersen) t = .ok t' ∧ Valid pedersen t'
  | [], t, ht => ⟨t, rfl, ht⟩
  | op :: ops, t, ht => by
      obtain ⟨t₁, hstep, ht₁⟩ := valid_step ht op
      obtain ⟨t₂, hrun, ht₂⟩ := valid_foldlM ops ht₁
      refine ⟨t₂, ?_, ht₂⟩
      rw [List.foldlM_cons, hstep]
      exact hrun

/-- **The incremental trie is the plain one.** After any run of updates and
cache round trips the next slot set is answered with its `storage_root`, and a
rejected call changes nothing. -/
theorem run_update_eq_storageRoot (pedersen : Felt → Felt → Felt) (ops : List Op) :
    ∃ t, run pedersen ops = .ok t ∧
      (∀ entries, SlotSet entries →
        (t.update pedersen entries).1 = .ok (storageRoot pedersen entries)) ∧
      (∀ entries e, (t.update pedersen entries).1 = .error e →
        (t.update pedersen entries).2 = t ∧
          (t.update pedersen entries).2.rootHash pedersen = t.rootHash pedersen) ∧
      CachedTrie.decode t.encode = .ok t := by
  obtain ⟨t, hrun, ht⟩ := valid_foldlM ops (valid_default pedersen)
  refine ⟨t, hrun, fun entries h => (update_accepted ht h).1, fun entries e h => ?_,
    decode_encode ht⟩
  have := update_rejected h
  exact ⟨this, by rw [this]⟩

end CachedTrie

end Strk20.Feed.Trie
