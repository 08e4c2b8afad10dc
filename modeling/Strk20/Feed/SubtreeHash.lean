import Strk20.Feed.ProofNodes

/-!
# What the storage root and the subtree hashes say (`mpt.rs`)

The root of a slot list depends on its nonzero slots only and determines them. The hash
at a prefix is built from the hashes below it as a trie node is: a leaf's value, a binary
node over both children, or an edge down to where the keys part.
-/

namespace Strk20.Feed.Mpt

open BitPath Strk20.Lists Patricia

section

variable {pedersen : Felt → Felt → Felt}

/-! ## Canonical roots -/

theorem slotFn_congr {a b : List (Felt × Felt)} (ha : SlotSet a) (hb : SlotSet b)
    (h : ∀ k v, v ≠ 0 → ((k, v) ∈ a ↔ (k, v) ∈ b)) : slotFn a = slotFn b := by
  funext bits
  refine assoc_congr_of_mem_iff ha.nodup hb.nodup (fun k v hv => ?_) (bitsToFelt bits)
  rw [List.mem_filter, List.mem_filter, h k v hv]

/-- Slots that read alike are the same slots. -/
theorem mem_iff_of_slotFn {a b : List (Felt × Felt)} (ha : SlotSet a) (hb : SlotSet b)
    (h : ∀ bits : List Bool, bits.length = TREE_HEIGHT → slotFn a bits = slotFn b bits) {k v : Felt}
    (hv : v ≠ 0) : (k, v) ∈ a ↔ (k, v) ∈ b := by
  have hside : ∀ {x y : List (Felt × Felt)}, SlotSet x → SlotSet y →
      (∀ bits : List Bool, bits.length = TREE_HEIGHT → slotFn x bits = slotFn y bits) →
      (k, v) ∈ x → (k, v) ∈ y := by
    intro x y hx hy hxy hmem
    have hk := hx.isTrieKey _ hmem
    have hread := hxy (keyBits k) (length_keyBits k)
    rw [slotFn_keyBits hk, slotFn_keyBits hk, (slotValue_eq_iff hx hv).mpr hmem] at hread
    exact (slotValue_eq_iff hy hv).mp hread.symm
  exact ⟨hside ha hb h, hside hb ha fun bits hbits => (h bits hbits).symm⟩

/-- The nodes of a slot set's trie. -/
def slotNodes (pedersen : Felt → Felt → Felt) (entries : List (Felt × Felt)) : Set (Body Felt) :=
  Patricia.nodes (feltHashing pedersen) TREE_HEIGHT (slotFn entries)

theorem storageRoot_eq_zero_iff {a : List (Felt × Felt)} (ha : SlotSet a)
    (hnz : ∀ b ∈ slotNodes pedersen a, (feltHashing pedersen).hash b ≠ 0) :
    storageRoot pedersen a = 0 ↔ ∀ e ∈ a, e.2 = 0 := by
  rw [storageRoot_eq_root pedersen ha]
  constructor
  · intro hroot e he
    have hzero := root_eq_zero_inv hnz hroot (keyBits e.1) (length_keyBits e.1)
    rw [slotFn_keyBits (ha.isTrieKey e he)] at hzero
    by_contra hne
    rw [(slotValue_eq_iff ha hne).mpr he] at hzero
    exact hne hzero
  · intro hall
    refine root_eq_zero_of_forall fun bits _ => ?_
    by_contra hne
    exact hne (hall _ ((slotValue_eq_iff ha hne).mp rfl))

/-- **The storage root is canonical and injective.** Neither the order of a slot list nor
its zero-valued entries change its root; with a collision-free node hash, lists of one
root have the same nonzero slots, and the zero root is that of no slot. -/
theorem storageRoot_canonical (pedersen : Felt → Felt → Felt) {a : List (Felt × Felt)}
    (ha : SlotSet a) :
    (∀ b zeros, SlotSet b → (∀ e ∈ zeros, e.2 = 0) → b.Perm (a ++ zeros) →
      storageRoot pedersen b = storageRoot pedersen a) ∧
    (∀ b, SlotSet b →
      CollisionFreeOn (feltHashing pedersen) (slotNodes pedersen a ∪ slotNodes pedersen b) →
      storageRoot pedersen a = storageRoot pedersen b →
      ∀ k v, v ≠ 0 → ((k, v) ∈ a ↔ (k, v) ∈ b)) ∧
    (CollisionFreeOn (feltHashing pedersen) (slotNodes pedersen a) →
      (storageRoot pedersen a = 0 ↔ ∀ e ∈ a, e.2 = 0)) := by
  refine ⟨?_, ?_, ?_⟩
  · intro b zeros hb hzeros hperm
    rw [storageRoot_eq_root pedersen ha, storageRoot_eq_root pedersen hb]
    refine congrArg _ (slotFn_congr hb ha fun k v hv => ?_)
    rw [hperm.mem_iff, List.mem_append]
    constructor
    · rintro (hmem | hmem)
      · exact hmem
      · exact absurd (hzeros _ hmem) hv
    · exact Or.inl
  · intro b hb hcf heq k v hv
    rw [storageRoot_eq_root pedersen ha, storageRoot_eq_root pedersen hb] at heq
    exact mem_iff_of_slotFn ha hb
      (root_inj hcf Set.subset_union_left Set.subset_union_right heq) hv
  · intro hcf
    exact storageRoot_eq_zero_iff ha hcf.ne_zero

/-- The slots in the other order and with a zero-valued entry: the same root, which
determines both slots. -/
theorem storageRoot_canonical_two :
    storageRoot twoPedersen [(highSlot, 5), (2, 0), (1, 5)] = storageRoot twoPedersen twoSlots ∧
      (∀ k v : Felt, v ≠ 0 → ((k, v) ∈ twoSlots ↔ (k, v) ∈ [(highSlot, 5), (2, 0), (1, 5)])) ∧
      storageRoot twoPedersen twoSlots ≠ 0 := by
  have hmixed : SlotSet [(highSlot, 5), (2, 0), (1, 5)] := by
    refine ⟨fun e he => ?_, by decide⟩
    simp only [List.mem_cons, List.not_mem_nil, or_false] at he
    rcases he with rfl | rfl | rfl <;> decide
  have hcf : CollisionFreeOn (feltHashing twoPedersen) (slotNodes twoPedersen twoSlots) :=
    slotBodies_collisionFree.mono nodes_twoSlots
  obtain ⟨hperm, hinj, hzero⟩ := storageRoot_canonical twoPedersen slotSet_twoSlots
  have hroots := hperm [(highSlot, 5), (2, 0), (1, 5)] [(2, 0)] hmixed (by simp) (by decide)
  have hnodes : slotNodes twoPedersen [(highSlot, 5), (2, 0), (1, 5)] =
      slotNodes twoPedersen twoSlots := by
    have hsame : slotFn [(highSlot, 5), (2, 0), (1, 5)] = slotFn twoSlots := by
      refine slotFn_congr hmixed slotSet_twoSlots fun k v hv => ?_
      simp only [twoSlots, List.mem_cons, List.not_mem_nil, or_false]
      constructor
      · rintro (heq | heq | heq)
        · exact Or.inr heq
        · exact absurd (Prod.mk.inj heq).2 hv
        · exact Or.inl heq
      · rintro (heq | heq)
        · exact Or.inr (Or.inr heq)
        · exact Or.inl heq
    unfold slotNodes
    rw [hsame]
  refine ⟨hroots, hinj _ hmixed ?_ hroots.symm, fun hroot => ?_⟩
  · rw [hnodes, Set.union_self]
    exact hcf
  · exact absurd ((hzero hcf).mp hroot (1, 5) (by decide)) (by decide)

/-! ## Subtree hashes -/

/-- Some key of the sorted entries begins with the prefix. -/
def HasKey (sorted : List (List Bool × Felt)) (pre : List Bool) : Prop := ∃ e ∈ sorted, pre <+: e.1

/-- The longest extension of the prefix that all its keys share. -/
structure LongestExtension (sorted : List (List Bool × Felt)) (pre ext : List Bool) : Prop where
  common : ∀ e ∈ sorted, pre <+: e.1 → pre ++ ext <+: e.1
  longest : ∀ ext', (∀ e ∈ sorted, pre <+: e.1 → pre ++ ext' <+: e.1) → ext' <+: ext

variable {entries : List (Felt × Felt)} {pre : List Bool}

/-- The slots below a prefix are its keys. -/
theorem hasKey_iff (hpre : pre.length ≤ TREE_HEIGHT) : HasKey (bitEntries entries) pre ↔
    ∃ k : List Bool, k.length = TREE_HEIGHT - pre.length ∧
      below (assoc (bitEntries entries)) pre k ≠ 0 := by
  have hnodup : ((bitEntries entries).map Prod.fst).Nodup :=
    List.pairwise_map.mpr ((bitEntries_sorted entries).imp fun h => h.2)
  constructor
  · rintro ⟨e, he, k, hk⟩
    obtain ⟨hlen, hnz⟩ := mem_bitEntries_length he
    rw [← hk, List.length_append] at hlen
    refine ⟨k, by omega, ?_⟩
    rw [below_apply, hk, assoc_of_mem hnodup he]
    exact hnz
  · rintro ⟨k, -, hne⟩
    rw [below_apply] at hne
    exact ⟨_, mem_of_assoc_ne_zero hne, List.prefix_append pre k⟩

theorem summary_hasKey (pedersen : Felt → Felt → Felt) (hpre : pre.length ≤ TREE_HEIGHT)
    (hkey : HasKey (bitEntries entries) pre) :
    ∃ n, summary (feltHashing pedersen) (TREE_HEIGHT - pre.length)
      (below (assoc (bitEntries entries)) pre) = some n := by
  obtain ⟨k, hk, hne⟩ := (hasKey_iff hpre).mp hkey
  cases hn : summary (feltHashing pedersen) (TREE_HEIGHT - pre.length)
      (below (assoc (bitEntries entries)) pre) with
  | none => exact absurd (summary_eq_none_iff.mp hn k hk) hne
  | some n => exact ⟨n, rfl⟩

theorem subtreeHashAt_eq_zero_iff (hpre : pre.length ≤ TREE_HEIGHT)
    (hnz : ∀ b ∈ Patricia.nodes (feltHashing pedersen) (TREE_HEIGHT - pre.length)
      (below (assoc (bitEntries entries)) pre), (feltHashing pedersen).hash b ≠ 0) :
    subtreeHashAt pedersen (bitEntries entries) pre = 0 ↔ ¬ HasKey (bitEntries entries) pre := by
  rw [subtreeHashAt_eq_root_assoc pedersen hpre, hasKey_iff hpre]
  constructor
  · intro hroot hslot
    exact root_ne_zero hnz hslot hroot
  · intro hnone
    refine root_eq_zero_of_forall fun k hk => ?_
    by_contra hne
    exact hnone ⟨k, hk, hne⟩

theorem subtreeHashAt_leaf (hpre : pre.length = TREE_HEIGHT) {v : Felt}
    (hmem : (pre, v) ∈ bitEntries entries) :
    subtreeHashAt pedersen (bitEntries entries) pre = v := by
  have hnodup : ((bitEntries entries).map Prod.fst).Nodup :=
    List.pairwise_map.mpr ((bitEntries_sorted entries).imp fun h => h.2)
  rw [subtreeHashAt_eq_root_assoc pedersen (Nat.le_of_eq hpre), hpre, Nat.sub_self, root_zero,
    below_apply, List.append_nil, assoc_of_mem hnodup hmem]

theorem lt_height_of_hasKey {bit : Bool} (hkey : HasKey (bitEntries entries) (pre ++ [bit])) :
    (pre ++ [bit]).length ≤ TREE_HEIGHT := by
  obtain ⟨e, he, hp⟩ := hkey
  rw [← (mem_bitEntries_length he).1]
  exact hp.length_le

theorem subtreeHashAt_binary (hleft : HasKey (bitEntries entries) (pre ++ [false]))
    (hright : HasKey (bitEntries entries) (pre ++ [true])) :
    subtreeHashAt pedersen (bitEntries entries) pre =
      binaryHash pedersen (subtreeHashAt pedersen (bitEntries entries) (pre ++ [false]))
        (subtreeHashAt pedersen (bitEntries entries) (pre ++ [true])) := by
  have hl := lt_height_of_hasKey hleft
  have hr := lt_height_of_hasKey hright
  have hlen : ∀ bit : Bool, (pre ++ [bit]).length = pre.length + 1 := fun bit => by simp
  obtain ⟨l, hsl⟩ := summary_hasKey pedersen hl hleft
  obtain ⟨r, hsr⟩ := summary_hasKey pedersen hr hright
  rw [hlen] at hl
  obtain ⟨h, hh⟩ : ∃ h, TREE_HEIGHT - pre.length = h + 1 := ⟨TREE_HEIGHT - pre.length - 1, by omega⟩
  have hh' : ∀ bit : Bool, TREE_HEIGHT - (pre ++ [bit]).length = h := fun bit => by
    rw [hlen]
    omega
  rw [subtreeHashAt_eq_root_assoc pedersen (by omega), subtreeHashAt_eq_root_assoc pedersen
    (by rw [hlen]; omega), subtreeHashAt_eq_root_assoc pedersen (by rw [hlen]; omega), hh', hh', hh]
  rw [hh', below_append] at hsl hsr
  rw [root_of_summary (summary_binary hsl hsr), below_append, below_append, root_of_summary hsl,
    root_of_summary hsr]
  rfl

/-- What two paths that part after `q` share lies within `q`. -/
theorem prefix_of_parted {p q s u : List Bool} (hleft : p <+: q ++ false :: s)
    (hright : p <+: q ++ true :: u) : p <+: q := by
  by_cases hlen : p.length ≤ q.length
  · exact List.prefix_of_prefix_length_le hleft (List.prefix_append q _) hlen
  · -- longer than `q`, it would end in both bits
    have hlong : ∀ {b : Bool} {x : List Bool}, p <+: q ++ b :: x → q ++ [b] <+: p := by
      intro b x hp
      refine List.prefix_of_prefix_length_le ⟨x, by simp⟩ hp ?_
      rw [List.length_append, List.length_singleton]
      omega
    have hboth : q ++ [false] = q ++ [true] := by
      have hone := List.prefix_of_prefix_length_le (hlong hleft) (hlong hright) (by simp)
      exact hone.eq_of_length (by simp)
    simp at hboth

/-- The path of a subtree's summary is the longest extension of its prefix. -/
theorem longestExtension_path (hpre : pre.length ≤ TREE_HEIGHT) {n : SubNode}
    (hn : summary (feltHashing pedersen) (TREE_HEIGHT - pre.length)
      (below (assoc (bitEntries entries)) pre) = some n) :
    LongestExtension (bitEntries entries) pre n.path := by
  have hnodup : ((bitEntries entries).map Prod.fst).Nodup :=
    List.pairwise_map.mpr ((bitEntries_sorted entries).imp fun h => h.2)
  obtain ⟨h', hlen, hout, hbelow⟩ := summary_path_spec hn
  constructor
  · rintro e he ⟨k, hk⟩
    obtain ⟨hheight, hnz⟩ := mem_bitEntries_length he
    rw [← hk, List.length_append] at hheight
    have hin : n.path <+: k := by
      by_contra hnot
      have hzero := hout k (by omega) hnot
      rw [below_apply, hk, assoc_of_mem hnodup he] at hzero
      exact hnz hzero
    rw [← hk]
    exact (List.prefix_append_right_inj pre).mpr hin
  · intro ext hcommon
    -- every slot below the path is a key that `ext` is common to
    have hslot : ∀ k, below (below (assoc (bitEntries entries)) pre) n.path k ≠ 0 →
        ext <+: n.path ++ k := by
      intro k hne
      rw [below_apply, below_apply] at hne
      have hshared := hcommon _ (mem_of_assoc_ne_zero hne) (List.prefix_append pre _)
      exact (List.prefix_append_right_inj pre).mp hshared
    cases h' with
    | zero =>
        obtain ⟨k, hk, hne⟩ := occupied_of_summary hbelow
        have hend := hslot k hne
        rw [List.length_eq_zero_iff.mp hk, List.append_nil] at hend
        exact hend
    | succ h' =>
        obtain ⟨l, r, hl, hr, -⟩ := summary_nil_path hbelow
        obtain ⟨kl, -, hnel⟩ := occupied_of_summary hl
        obtain ⟨kr, -, hner⟩ := occupied_of_summary hr
        exact prefix_of_parted (hslot _ hnel) (hslot _ hner)

theorem subtreeHashAt_edge {bit : Bool} (hone : HasKey (bitEntries entries) (pre ++ [bit]))
    (hnone : ¬ HasKey (bitEntries entries) (pre ++ [!bit])) :
    ∃ ext, ext ≠ [] ∧ LongestExtension (bitEntries entries) pre ext ∧
      subtreeHashAt pedersen (bitEntries entries) pre =
        edgeHash pedersen (subtreeHashAt pedersen (bitEntries entries) (pre ++ ext))
          (bitsToFelt ext) ext.length := by
  have hshort := lt_height_of_hasKey hone
  rw [List.length_append, List.length_singleton] at hshort
  have hkey : HasKey (bitEntries entries) pre := by
    obtain ⟨e, he, hp⟩ := hone
    exact ⟨e, he, (List.prefix_append pre [bit]).trans hp⟩
  obtain ⟨n, hn⟩ := summary_hasKey pedersen (by omega) hkey
  have hext := longestExtension_path (by omega) hn
  obtain ⟨h', hlen, -, hbelow⟩ := summary_path_spec hn
  -- keys continue with one bit, so that bit is shared
  have hpath : [bit] <+: n.path := by
    refine hext.longest [bit] fun e he hp => ?_
    obtain ⟨k, hk⟩ := hp
    obtain ⟨hheight, -⟩ := mem_bitEntries_length he
    cases k with
    | nil =>
        rw [← hk, List.append_nil] at hheight
        omega
    | cons c k =>
        by_cases hc : c = bit
        · rw [← hk, hc]
          exact ⟨k, by simp⟩
        · refine absurd ⟨e, he, ?_⟩ hnone
          have hnot : c = !bit := Bool.eq_not.mpr hc
          rw [← hk, hnot]
          exact ⟨k, by simp⟩
  have hne : n.path ≠ [] := by
    rintro hnil
    rw [hnil] at hpath
    cases List.prefix_nil.mp hpath
  refine ⟨n.path, hne, hext, ?_⟩
  have hchild : subtreeHashAt pedersen (bitEntries entries) (pre ++ n.path) = n.bottom := by
    have hheight : TREE_HEIGHT - (pre ++ n.path).length = h' := by
      rw [List.length_append]
      omega
    rw [subtreeHashAt_eq_root_assoc pedersen (by rw [List.length_append]; omega), hheight,
      below_append, root_of_summary hbelow]
    rfl
  rw [hchild, subtreeHashAt_eq_root_assoc pedersen (by omega), root_of_summary hn, ← resolve_eq]
  unfold resolve edgeHash
  rw [if_neg (by simpa using hne)]

/-- **Subtree hashes compose like trie nodes.** For the sorted form of any slot list and
every prefix: with a node hash that is never zero, the hash is zero exactly when no key
has the prefix; at full depth it is the key's value; where keys continue with both bits
it is the binary hash of the children; where they continue with one, the edge hash over
the longest extension they share. -/
theorem subtreeHashAt_composes (pedersen : Felt → Felt → Felt) (entries : List (Felt × Felt))
    {pre : List Bool} (hpre : pre.length ≤ TREE_HEIGHT) :
    ((∀ b ∈ Patricia.nodes (feltHashing pedersen) (TREE_HEIGHT - pre.length)
        (below (assoc (bitEntries entries)) pre), (feltHashing pedersen).hash b ≠ 0) →
      (subtreeHashAt pedersen (bitEntries entries) pre = 0 ↔
        ¬ HasKey (bitEntries entries) pre)) ∧
    (pre.length = TREE_HEIGHT → ∀ v, (pre, v) ∈ bitEntries entries →
      subtreeHashAt pedersen (bitEntries entries) pre = v) ∧
    (HasKey (bitEntries entries) (pre ++ [false]) → HasKey (bitEntries entries) (pre ++ [true]) →
      subtreeHashAt pedersen (bitEntries entries) pre =
        binaryHash pedersen (subtreeHashAt pedersen (bitEntries entries) (pre ++ [false]))
          (subtreeHashAt pedersen (bitEntries entries) (pre ++ [true]))) ∧
    ∀ bit, HasKey (bitEntries entries) (pre ++ [bit]) →
      ¬ HasKey (bitEntries entries) (pre ++ [!bit]) →
      ∃ ext, ext ≠ [] ∧ LongestExtension (bitEntries entries) pre ext ∧
        subtreeHashAt pedersen (bitEntries entries) pre =
          edgeHash pedersen (subtreeHashAt pedersen (bitEntries entries) (pre ++ ext))
            (bitsToFelt ext) ext.length := by
  refine ⟨subtreeHashAt_eq_zero_iff hpre, ?_, subtreeHashAt_binary, ?_⟩
  · intro hfull v hmem
    exact subtreeHashAt_leaf hfull hmem
  · intro bit hone hnone
    exact subtreeHashAt_edge hone hnone

/-- The hashes of a two-slot trie: a leaf, the edge over it, the binary node at the top. -/
theorem subtreeHashAt_composes_two :
    subtreeHashAt twoPedersen (bitEntries twoSlots) (keyBits 1) = 5 ∧
      subtreeHashAt twoPedersen (bitEntries twoSlots) (keyBits 1) ≠ 0 ∧
      (∃ ext, ext ≠ [] ∧ LongestExtension (bitEntries twoSlots) [true] ext ∧
        subtreeHashAt twoPedersen (bitEntries twoSlots) [true] =
          edgeHash twoPedersen (subtreeHashAt twoPedersen (bitEntries twoSlots) ([true] ++ ext))
            (bitsToFelt ext) ext.length) ∧
      subtreeHashAt twoPedersen (bitEntries twoSlots) [] =
        binaryHash twoPedersen (subtreeHashAt twoPedersen (bitEntries twoSlots) [false])
          (subtreeHashAt twoPedersen (bitEntries twoSlots) [true]) := by
  have hlow : (keyBits 1, 5) ∈ bitEntries twoSlots := by
    rw [bitEntries_twoSlots]
    exact List.mem_cons_self
  have hhigh : (keyBits highSlot, 5) ∈ bitEntries twoSlots := by
    rw [bitEntries_twoSlots]
    exact List.mem_cons_of_mem _ (List.mem_singleton_self _)
  obtain ⟨hzero, hleaf, -, -⟩ := subtreeHashAt_composes twoPedersen twoSlots
    (Nat.le_of_eq (length_keyBits 1))
  obtain ⟨-, -, -, hedge⟩ := subtreeHashAt_composes twoPedersen twoSlots
    (show [true].length ≤ TREE_HEIGHT by decide)
  obtain ⟨-, -, hbinary, -⟩ := subtreeHashAt_composes twoPedersen twoSlots
    (show ([] : List Bool).length ≤ TREE_HEIGHT from Nat.zero_le TREE_HEIGHT)
  refine ⟨hleaf (length_keyBits 1) 5 hlow, fun hhash => ?_, hedge false ?_ ?_, hbinary ?_ ?_⟩
  · refine (hzero fun b hb => ?_).mp hhash ⟨_, hlow, List.prefix_refl _⟩
    have hpos := nodeAt_pos hb
    rw [length_keyBits, Nat.sub_self] at hpos
    exact absurd hpos (Nat.lt_irrefl 0)
  · exact ⟨_, hhigh, by rw [keyBits_high]; decide⟩
  · rintro ⟨e, he, hp⟩
    rw [bitEntries_twoSlots] at he
    rcases List.mem_pair.mp he with rfl | rfl
    · rw [keyBits_one] at hp
      exact absurd hp (by decide)
    · rw [keyBits_high] at hp
      exact absurd hp (by decide)
  · exact ⟨_, hlow, by rw [keyBits_one]; decide⟩
  · exact ⟨_, hhigh, by rw [keyBits_high]; decide⟩

end

end Strk20.Feed.Mpt
