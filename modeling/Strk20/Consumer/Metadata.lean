import Strk20.Consumer.Accepts

/-!
# The metadata of a mirror

Over any run of successful calls the metadata of a store names the last epoch
it was given (`MetaInv`), so a call resumes where the one before stopped.
-/

namespace Strk20.Consumer

open Feed Json Result

/-! ## What a history ends in -/

namespace History

/-- A list with an entry for the snapshot, if any, and one for every epoch. -/
def entries {α : Type} (ofSnapshot : SnapshotHeader → α) (ofEpoch : AppliedEpoch → α)
    (h : History) : List α :=
  (h.snapshot.map fun x => ofSnapshot x.header).toList ++ h.epochs.map ofEpoch

def indices (h : History) : List Nat := h.entries (·.epoch) (·.entry.e)

/-- Content hashes as the metadata spells them. -/
def hashes (h : History) : List String :=
  h.entries (·.epochHash) fun a => hexEncode (payloadSha256 a.payload)

/-- Last blocks. -/
def ends (h : History) : List Nat := h.entries (·.block) (·.entry.last)

section

variable {α : Type} (f : SnapshotHeader → α) (g : AppliedEpoch → α)

theorem entries_append {h a : History} (hsnap : a.snapshot ≠ none → h.entries f g = []) :
    (h.append a).entries f g = h.entries f g ++ a.entries f g := by
  cases ha : a.snapshot with
  | none => simp [entries, append, ha]
  | some x =>
      have hnil := hsnap (by simp [ha])
      rw [hnil]
      simp only [entries, List.append_eq_nil_iff, Option.toList_eq_nil_iff, Option.map_eq_none_iff,
        List.map_eq_nil_iff] at hnil
      simp [entries, append, ha, hnil.1, hnil.2]

theorem entries_eq_nil_iff {h : History} :
    h.entries f g = [] ↔ h.snapshot = none ∧ h.epochs = [] := by
  simp [entries]

end

end History

/-! ## Metadata -/

section

variable {S : Type} [LawfulStore S]

/-- Keys the genesis pin writes. -/
def pinKeys : List String := ["pool", "chain_id", "epoch_size", "genesis_block"]

theorem metaGet_pinned (genesis : Genesis) (s : S) {key : String} (h : key ∉ pinKeys) :
    metaGet (pinned genesis s) key = metaGet s key := by
  simp only [pinKeys, List.mem_cons, List.not_mem_nil, or_false, not_or] at h
  rw [pinned]
  split
  · simp only [LawfulStore.metaGet_metaSet, if_neg h.1, if_neg h.2.1, if_neg h.2.2.1,
      if_neg h.2.2.2]
  · rfl

theorem pool_pinned (genesis : Genesis) (s : S) :
    ∃ p, metaGet (pinned genesis s) "pool" = some p := by
  rw [pinned]
  cases hp : metaGet s "pool" with
  | some p => exact ⟨p, hp⟩
  | none =>
      refine ⟨genesis.pool, ?_⟩
      simp only [LawfulStore.metaGet_metaSet]
      simp

theorem isEmpty_pinned (genesis : Genesis) (s : S) :
    ConsumerStore.isEmpty (pinned genesis s) = ConsumerStore.isEmpty s := by
  rw [pinned]
  split
  · rw [LawfulStore.isEmpty_metaSet _ _ (by decide), LawfulStore.isEmpty_metaSet _ _ (by decide),
      LawfulStore.isEmpty_metaSet _ _ (by decide), LawfulStore.isEmpty_metaSet _ _ (by decide)]
  · rfl

theorem rows_pinned (genesis : Genesis) (s : S) :
    LawfulStore.rows (pinned genesis s) = LawfulStore.rows s := by
  rw [pinned]
  split
  · simp only [LawfulStore.rows_metaSet]
  · rfl

theorem good_pinned (genesis : Genesis) {s : S} (h : LawfulStore.Good s) :
    LawfulStore.Good (pinned genesis s) := by
  rw [pinned]
  split
  · exact LawfulStore.good_metaSet _ _ _ (LawfulStore.good_metaSet _ _ _
      (LawfulStore.good_metaSet _ _ _ (LawfulStore.good_metaSet _ _ _ h)))
  · exact h

/-- Keys an applied epoch writes. -/
def epochKeys : List String := ["last_epoch_applied", "last_epoch_hash", "last_epoch_to"]

theorem metaGet_folds {l : List AppliedEpoch} {s s' : S} (h : Folds l s s') {key : String}
    (hkey : key ∉ "tail_generation" :: epochKeys) : metaGet s' key = metaGet s key := by
  simp only [epochKeys, List.mem_cons, List.not_mem_nil, or_false, not_or] at hkey
  induction h with
  | nil => rfl
  | cons hrep _ ih =>
      rw [ih, LawfulStore.metaGet_replaceRange hkey.1 hrep]
      simp only [metaAfter, epochMeta, List.foldl_cons, List.foldl_nil, if_neg hkey.2.1,
        if_neg hkey.2.2.1, if_neg hkey.2.2.2]

/-- The value of a key every epoch writes is the last epoch's. -/
theorem metaGet_folds_last {l : List AppliedEpoch} {s s' : S} (h : Folds l s s') (key : String)
    (hgen : key ≠ "tail_generation") {f : AppliedEpoch → String}
    (hf : ∀ a old, metaAfter (epochMeta a.entry a.payload) key old = some (f a)) :
    metaGet s' key = (l.getLast?.map f).or (metaGet s key) := by
  induction h with
  | nil => simp
  | @cons a rest s s₁ s' bump hrep _ ih =>
      rw [ih, LawfulStore.metaGet_replaceRange hgen hrep, hf]
      cases hlast : rest.getLast? <;> simp [List.getLast?_cons, hlast]

theorem metaGet_headStep {P : FeltParser} {J : JsonParser} {t : FeedTransport} {s s' : S}
    (h : HeadStep P J t s s') {key : String}
    (hkey : key ∉ ["tail_generation", "head_etag", "head_number", "head_hash", "l1_accepted"]) :
    metaGet s' key = metaGet s key := by
  simp only [List.mem_cons, List.not_mem_nil, or_false, not_or] at hkey
  rcases h with ⟨-, rfl⟩ | ⟨payload, etag, head, -, hfold⟩
  · rfl
  · obtain ⟨bump, hrep⟩ := hfold.replaced
    rw [LawfulStore.metaGet_replaceRange hkey.1 hrep]
    simp only [metaAfter, headMeta, List.foldl_cons, List.foldl_nil, if_neg hkey.2.1,
      if_neg hkey.2.2.1, if_neg hkey.2.2.2.1, if_neg hkey.2.2.2.2]

/-- The metadata of a store against what it was given. -/
structure MetaInv (s : S) (h : History) : Prop where
  index : metaGet s "last_epoch_applied" = h.indices.getLast?.map Nat.repr
  hash : metaGet s "last_epoch_hash" = h.hashes.getLast?
  floor : metaGet s "last_epoch_to" = h.ends.getLast?.map Nat.repr
  indexBounded : ∀ n ∈ h.indices.getLast?, n < 2 ^ 64
  floorBounded : ∀ n ∈ h.ends.getLast?, n < 2 ^ 64
  hashKey : ∀ text ∈ h.hashes.getLast?, ∃ k, text = hexEncode k
  pinned : h.indices ≠ [] → ∃ p, metaGet s "pool" = some p

theorem MetaInv.of_fresh {s : S} (h : Fresh s) : MetaInv s History.empty where
  index := h.metas _
  hash := h.metas _
  floor := h.metas _
  indexBounded n hn := by cases hn
  floorBounded n hn := by cases hn
  hashKey n hn := by cases hn
  pinned hne := absurd rfl hne

theorem MetaInv.metaU64_index {s : S} {h : History} (hi : MetaInv s h) :
    metaU64 s "last_epoch_applied" = h.indices.getLast? := by
  rw [metaU64, hi.index]
  cases hlast : h.indices.getLast? with
  | none => rfl
  | some n => exact Text.parseU64_repr (hi.indexBounded n hlast)

theorem MetaInv.metaU64_floor {s : S} {h : History} (hi : MetaInv s h) :
    metaU64 s "last_epoch_to" = h.ends.getLast? := by
  rw [metaU64, hi.floor]
  cases hlast : h.ends.getLast? with
  | none => rfl
  | some n => exact Text.parseU64_repr (hi.floorBounded n hlast)

theorem MetaInv.lastEpochTo_eq {s : S} {h : History} (hi : MetaInv s h) :
    lastEpochTo s = h.ends.getLast?.getD 0 := by
  rw [lastEpochTo, hi.metaU64_floor]

theorem decodeStoredHash_hexEncode (k : Key) : decodeStoredHash (hexEncode k) = .ok k := by
  simp [decodeStoredHash, hexDecode_hexEncode]

theorem MetaInv.storedHash_eq {s : S} {h : History} (hi : MetaInv s h) :
    (h.hashes.getLast? = none ∧ storedHash s = .ok none) ∨
      ∃ k, h.hashes.getLast? = some (hexEncode k) ∧ storedHash s = .ok (some k) := by
  rw [storedHash, hi.hash]
  cases hlast : h.hashes.getLast? with
  | none => exact .inl ⟨rfl, rfl⟩
  | some text =>
      obtain ⟨k, rfl⟩ := hi.hashKey text hlast
      exact .inr ⟨k, rfl, by simp only [decodeStoredHash_hexEncode]; rfl⟩

/-! ## One call -/

variable {P : FeltParser} {J : JsonParser} {c : Call} {s s' : S} {h : History}

/-- A snapshot goes into a store that was given nothing. -/
theorem CallTrace.snapshot_fresh (T : CallTrace P J c s s') (hi : MetaInv s h)
    (hsnap : T.snapshot ≠ none) : h.snapshot = none ∧ h.epochs = [] := by
  obtain ⟨x, hx⟩ := Option.ne_none_iff_exists'.mp hsnap
  have hinst := T.snapshot_ok
  rw [hx] at hinst
  obtain ⟨-, hempty, -⟩ := installed_ok P J hinst
  have hnone := LawfulStore.isEmpty_meta _ hempty
  rw [metaGet_pinned _ _ (by decide), hi.index, Option.map_eq_none_iff,
    List.getLast?_eq_none_iff] at hnone
  exact (History.entries_eq_nil_iff _ _).mp hnone

/-- The divergence check compares a stored basis hash with its own decoding:
what passes is a canonical hash. -/
theorem basisHash_encoded {text : String} {e : Nat} {manifest : Manifest} {prev : Option Key}
    {basis : ManifestEpoch} (hs : metaGet s "last_epoch_hash" = some text)
    (hprev : storedHash s = .ok prev) (hdiv : checkDivergence manifest (some e) prev = .ok ())
    (hb : manifest.epoch e = some basis) (ht : text = basis.hash) : ∃ k, text = hexEncode k := by
  simp only [storedHash, hs] at hprev
  cases hk : decodeStoredHash text with
  | error e =>
      rw [hk] at hprev
      cases hprev
  | ok k =>
      rw [hk] at hprev
      obtain rfl := Except.ok.inj hprev
      simp only [checkDivergence, hb] at hdiv
      split at hdiv
      · rename_i heq
        exact ⟨k, ht.trans heq⟩
      · cases hdiv

/-- After the snapshot step the metadata is that of the history with it. -/
theorem CallTrace.metaInv_snapshot (T : CallTrace P J c s s') (hi : MetaInv s h) :
    MetaInv (withSnapshot (pinned T.genesis s) T.snapshot) (h.append ⟨T.snapshot, []⟩) := by
  cases hx : T.snapshot with
  | none =>
      have hsame : h.append ⟨none, []⟩ = h := by simp [History.append]
      rw [hsame]
      refine ⟨?_, ?_, ?_, hi.indexBounded, hi.floorBounded, hi.hashKey,
        fun _ => pool_pinned T.genesis s⟩
      · exact (metaGet_pinned _ _ (by decide)).trans hi.index
      · exact (metaGet_pinned _ _ (by decide)).trans hi.hash
      · exact (metaGet_pinned _ _ (by decide)).trans hi.floor
  | some x =>
      obtain ⟨hs, he⟩ := T.snapshot_fresh hi (by simp [hx])
      have hinst := T.snapshot_ok
      rw [hx] at hinst
      obtain ⟨-, -, entry, -, hfacts⟩ := installed_ok P J hinst
      obtain ⟨basis, hbasis, payload, zst, hdec⟩ := hfacts.basis
      have hbounds := Snapshot.parse_bounded P J hdec.parsed
      have hmeta : ∀ key, metaGet (withSnapshot (pinned T.genesis s) (some x)) key =
          metaAfter (snapshotMeta x.header) key (metaGet (pinned T.genesis s) key) := fun key =>
        LawfulStore.metaGet_installSnapshot _ _ _ _
      have hhist : h.append ⟨some x, []⟩ = ⟨some x, []⟩ := by
        simp [History.append, hs, he]
      have hkey : ∃ k, x.header.epochHash = hexEncode k := by
        have hprev := T.prevHash_ok
        have hdiv := T.divergence_ok
        rw [hx] at hprev hdiv
        have hindex : metaU64 (withSnapshot (pinned T.genesis s) (some x)) "last_epoch_applied" =
            some x.header.epoch := by
          rw [metaU64, hmeta]
          simp only [metaAfter, snapshotMeta, List.foldl_cons, List.foldl_nil]
          exact Text.parseU64_repr hbounds.1
        have hstored : metaGet (withSnapshot (pinned T.genesis s) (some x)) "last_epoch_hash" =
            some x.header.epochHash := by
          rw [hmeta]
          simp [metaAfter, snapshotMeta]
        rw [hindex, hdec.epoch] at hdiv
        exact basisHash_encoded hstored hprev hdiv hbasis hdec.epochHash
      obtain ⟨k, hk⟩ := hkey
      rw [hhist]
      refine ⟨?_, ?_, ?_, ?_, ?_, ?_, fun _ => ?_⟩
      · rw [hmeta]
        simp [metaAfter, snapshotMeta, History.indices, History.entries]
      · rw [hmeta]
        simp [metaAfter, snapshotMeta, History.hashes, History.entries]
      · rw [hmeta]
        simp [metaAfter, snapshotMeta, History.ends, History.entries]
      · simpa [History.indices, History.entries] using hbounds.1
      · simpa [History.ends, History.entries] using hbounds.2
      · intro text htext
        obtain rfl : x.header.epochHash = text := by
          simpa [History.hashes, History.entries] using htext
        exact ⟨k, hk⟩
      · rw [hmeta]
        obtain ⟨p, hp⟩ := pool_pinned T.genesis s
        exact ⟨p, by simpa [metaAfter, snapshotMeta] using hp⟩

theorem CallTrace.chained (T : CallTrace P J c s s') :
    Chained P J T.genesis T.feedPool T.prevHash T.epochs :=
  (verifyEpochs_ok P J T.epochs_ok).2

theorem CallTrace.pending_eq (T : CallTrace P J c s s') : T.epochs.map (·.entry) =
    pending (metaU64 (withSnapshot (pinned T.genesis s) T.snapshot) "last_epoch_applied")
      T.manifest.epochs :=
  (verifyEpochs_ok P J T.epochs_ok).1

/-- Epochs fold into the metadata one after the other. -/
theorem MetaInv.folds {genesis : Genesis} {feedPool : Felt} {prev : Option Key}
    {l : List AppliedEpoch} {t : S} (hi : MetaInv s h) (hpool : ∃ p, metaGet s "pool" = some p)
    (hf : Folds l s t) (hc : Chained P J genesis feedPool prev l) :
    MetaInv t (h.append ⟨none, l⟩) := by
  have hentries : ∀ {α : Type} (f : SnapshotHeader → α) (g : AppliedEpoch → α),
      ((h.append ⟨none, l⟩).entries f g).getLast? =
        (l.getLast?.map g).or (h.entries f g).getLast? := by
    intro α f g
    rw [History.entries_append f g (by simp)]
    simp [History.entries, List.getLast?_append, List.getLast?_map, Option.or_assoc]
  have hlast : ∀ {α : Type} {f : SnapshotHeader → α} {g : AppliedEpoch → α} {p : α → Prop},
      (∀ x ∈ (h.entries f g).getLast?, p x) → (∀ a ∈ l, p (g a)) →
      ∀ x ∈ ((h.append ⟨none, l⟩).entries f g).getLast?, p x := by
    intro α f g p hh hl x hx
    rw [hentries] at hx
    cases hlast : l.getLast? with
    | none =>
        rw [hlast] at hx
        exact hh x hx
    | some a =>
        rw [hlast] at hx
        obtain rfl : g a = x := by simpa using hx
        exact hl a (List.mem_of_getLast? hlast)
  have hparsed : ∀ a ∈ l, Codec.ParsedEpoch a.epoch ∧ a.epoch.header.epoch = a.entry.e ∧
      a.epoch.header.last = a.entry.last := by
    intro a ha
    obtain ⟨prev', hfacts⟩ := Chained.mem P J hc a ha
    exact ⟨Codec.parseEpoch_parsed P J hfacts.verified.parsed, hfacts.verified.index,
      hfacts.verified.last⟩
  refine ⟨?_, ?_, ?_, ?_, ?_, ?_, fun _ => ?_⟩
  · rw [metaGet_folds_last hf _ (by decide) (f := fun a => a.entry.e.repr)
      (fun a old => by simp [metaAfter, epochMeta]), hi.index]
    unfold History.indices
    rw [hentries]
    cases l.getLast? <;> rfl
  · rw [metaGet_folds_last hf _ (by decide) (f := fun a => hexEncode (payloadSha256 a.payload))
      (fun a old => by simp [metaAfter, epochMeta]), hi.hash]
    unfold History.hashes
    rw [hentries]
  · rw [metaGet_folds_last hf _ (by decide) (f := fun a => a.entry.last.repr)
      (fun a old => by simp [metaAfter, epochMeta]), hi.floor]
    unfold History.ends
    rw [hentries]
    cases l.getLast? <;> rfl
  · exact hlast hi.indexBounded fun a ha => (hparsed a ha).2.1 ▸ (hparsed a ha).1.epoch
  · exact hlast hi.floorBounded fun a ha => (hparsed a ha).2.2 ▸ (hparsed a ha).1.last
  · exact hlast hi.hashKey fun a _ => ⟨_, rfl⟩
  · obtain ⟨p, hp⟩ := hpool
    exact ⟨p, (metaGet_folds hf (by decide)).trans hp⟩

theorem pool_withSnapshot {genesis : Genesis} (snap : Option Snapshot) :
    ∃ p, metaGet (withSnapshot (pinned genesis s) snap) "pool" = some p := by
  obtain ⟨p, hp⟩ := pool_pinned genesis s
  cases snap with
  | none => exact ⟨p, hp⟩
  | some x =>
      refine ⟨p, (LawfulStore.metaGet_installSnapshot _ _ _ _).trans ?_⟩
      simpa [metaAfter, snapshotMeta] using hp

theorem MetaInv.headStep {t : FeedTransport} (hi : MetaInv s h) (hs : HeadStep P J t s s') :
    MetaInv s' h := by
  refine ⟨?_, ?_, ?_, hi.indexBounded, hi.floorBounded, hi.hashKey, fun hne => ?_⟩
  · exact (metaGet_headStep hs (by decide)).trans hi.index
  · exact (metaGet_headStep hs (by decide)).trans hi.hash
  · exact (metaGet_headStep hs (by decide)).trans hi.floor
  · obtain ⟨p, hp⟩ := hi.pinned hne
    exact ⟨p, (metaGet_headStep hs (by decide)).trans hp⟩

/-- The metadata before the head step, which writes none of it. -/
theorem CallTrace.metaInv_folded (T : CallTrace P J c s s') (hi : MetaInv s h) :
    MetaInv T.folded (h.append T.history) := by
  have hsplit : h.append T.history = (h.append ⟨T.snapshot, []⟩).append ⟨none, T.epochs⟩ := by
    simp [History.append, CallTrace.history]
  rw [hsplit]
  exact (T.metaInv_snapshot hi).folds (pool_withSnapshot _) T.folds T.chained

/-- The step of every run: a successful call keeps metadata and history in
step. -/
theorem CallTrace.metaInv (T : CallTrace P J c s s') (hi : MetaInv s h) :
    MetaInv s' (h.append T.history) :=
  (T.metaInv_folded hi).headStep T.head

/-! ## Where a call starts from -/

/-- A number of the metadata at the start of the epoch loop: the snapshot's, if
the call installs one, or the stored one. -/
def baseOf (key : String) (f : ManifestSnapshot → Nat) (s : S) (mode : ColdStart)
    (manifest : Manifest) : Option Nat :=
  if mode ≠ .epochs ∧ ConsumerStore.isEmpty s then
    (manifest.snapshot.map f).or (metaU64 s key)
  else metaU64 s key

/-- The index the epochs of a call continue from. -/
def baseIndex (s : S) (mode : ColdStart) (manifest : Manifest) : Option Nat :=
  baseOf "last_epoch_applied" (·.e) s mode manifest

/-- The floor the epochs of a call start above. -/
def baseFloor (s : S) (mode : ColdStart) (manifest : Manifest) : Option Nat :=
  baseOf "last_epoch_to" (·.block) s mode manifest

theorem CallTrace.baseOf_eq (T : CallTrace P J c s s') {key : String} {f : ManifestSnapshot → Nat}
    {g : SnapshotHeader → Nat} (hkey : key ∉ pinKeys)
    (hmeta : ∀ h old, metaAfter (snapshotMeta h) key old = some (g h).repr)
    (hg : ∀ x ∈ T.snapshot, g x.header < 2 ^ 64 ∧
      ∀ entry ∈ T.manifest.snapshot, g x.header = f entry) :
    metaU64 (withSnapshot (pinned T.genesis s) T.snapshot) key =
      baseOf key f s c.mode T.manifest := by
  have hpin : metaU64 (pinned T.genesis s) key = metaU64 s key := by
    rw [metaU64, metaGet_pinned _ _ hkey, metaU64]
  have hinst := T.snapshot_ok
  cases hx : T.snapshot with
  | none =>
      refine hpin.trans ?_
      rw [hx, installed, isEmpty_pinned] at hinst
      rw [baseOf]
      split
      · rename_i hc
        rw [if_pos hc] at hinst
        cases hm : T.manifest.snapshot with
        | none => rfl
        | some entry =>
            simp only [hm] at hinst
            cases hf : fetchSnapshot P J c.transport T.manifest entry T.genesis T.feedPool <;>
              rw [hf] at hinst <;> cases hinst
      · rfl
  | some x =>
      rw [hx] at hinst
      obtain ⟨hmode, hempty, entry, hentry, -⟩ := installed_ok P J hinst
      obtain ⟨hbound, heq⟩ := hg x hx
      rw [isEmpty_pinned] at hempty
      have hget : metaGet (withSnapshot (pinned T.genesis s) (some x)) key =
          some (g x.header).repr :=
        (LawfulStore.metaGet_installSnapshot _ _ _ _).trans (hmeta _ _)
      rw [baseOf, if_pos ⟨hmode, hempty⟩, hentry, metaU64, hget, Option.map_some,
        ← heq entry hentry]
      exact Text.parseU64_repr hbound

theorem CallTrace.snapshotFacts (T : CallTrace P J c s s') {x : Snapshot}
    (hx : T.snapshot = some x) : ∃ entry, T.manifest.snapshot = some entry ∧
      SnapshotFacts P J T.manifest T.genesis T.feedPool entry x := by
  have hinst := T.snapshot_ok
  rw [hx] at hinst
  obtain ⟨-, -, entry, hentry, hfacts⟩ := installed_ok P J hinst
  exact ⟨entry, hentry, hfacts⟩

theorem CallTrace.baseIndex_eq (T : CallTrace P J c s s') :
    metaU64 (withSnapshot (pinned T.genesis s) T.snapshot) "last_epoch_applied" =
      baseIndex s c.mode T.manifest := by
  refine T.baseOf_eq (g := (·.epoch)) (by decide) (fun h old => by simp [metaAfter, snapshotMeta])
    fun x hx => ?_
  obtain ⟨entry, hentry, hfacts⟩ := T.snapshotFacts hx
  obtain ⟨basis, -, payload, zst, hdec⟩ := hfacts.basis
  refine ⟨(Snapshot.parse_bounded P J hdec.parsed).1, fun entry' hentry' => ?_⟩
  rw [hentry] at hentry'
  rw [hdec.epoch, Option.some.inj hentry']

theorem CallTrace.baseFloor_eq (T : CallTrace P J c s s') :
    metaU64 (withSnapshot (pinned T.genesis s) T.snapshot) "last_epoch_to" =
      baseFloor s c.mode T.manifest := by
  refine T.baseOf_eq (g := (·.block)) (by decide) (fun h old => by simp [metaAfter, snapshotMeta])
    fun x hx => ?_
  obtain ⟨entry, hentry, hfacts⟩ := T.snapshotFacts hx
  obtain ⟨basis, -, payload, zst, hdec⟩ := hfacts.basis
  refine ⟨(Snapshot.parse_bounded P J hdec.parsed).2, fun entry' hentry' => ?_⟩
  rw [hentry] at hentry'
  rw [hdec.block, Option.some.inj hentry']

theorem CallTrace.manifest_eq (T : CallTrace P J c s s') {manifest : Manifest}
    (hm : c.transport.fetchManifest = .ok manifest) : manifest = T.manifest := by
  have hfetch := (fetchManifest_eq_ok.mp T.manifest_ok).1
  exact Except.ok.inj (hm.symm.trans hfetch)

/-! ## Runs -/

/-- A run of successful calls, each of which was made as `Meets` asks, with
what the store was given along it. -/
inductive RunWith (P : FeltParser) (J : JsonParser) (Meets : S → Call → Prop) :
    S → List Call → S → History → Prop where
  | nil (s : S) : RunWith P J Meets s [] s History.empty
  | snoc {s₀ s s' : S} {calls : List Call} {h : History} {c : Call} {out : ApplyOutcome}
      (T : CallTrace P J c s s') : RunWith P J Meets s₀ calls s h →
      applyFeed P J c.transport c.mode s = .ok out s' → Meets s c →
      RunWith P J Meets s₀ (calls ++ [c]) s' (h.append T.history)

theorem RunWith.one {Meets : S → Call → Prop} {out : ApplyOutcome} (T : CallTrace P J c s s')
    (hok : applyFeed P J c.transport c.mode s = .ok out s') (hm : Meets s c) :
    RunWith P J Meets s [c] s' (History.empty.append T.history) := by
  have hrun := RunWith.snoc T (.nil s) hok hm
  exact hrun

theorem RunWith.metaInv {Meets : S → Call → Prop} {s₀ : S} {calls : List Call}
    (hrun : RunWith P J Meets s₀ calls s h) (hf : Fresh s₀) : MetaInv s h := by
  induction hrun with
  | nil => exact MetaInv.of_fresh hf
  | snoc T _ _ _ ih => exact T.metaInv ih

end

end Strk20.Consumer
