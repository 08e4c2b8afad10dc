import Strk20.Indexer.Published

/-!
# Snapshots that a run publishes (`cutter.rs`, `snapshot.rs`)

A snapshot is of a published epoch and folds to the root that it claims; the claim is
either that of a proof bound to the epoch's last block, or an anchor was seen at or above
that block. The newest snapshots have their files, and a consumer decodes each of them
against its row. All of this holds at every point of every run.
-/

namespace Strk20.Indexer

open Feed Feed.Codec Tables Versioned
open Consumer (toI64 toU64 toU64_toI64)
open Std (ExtTreeMap)
open Relation (ReflTransGen)

/-! ## Names of snapshot files -/

theorem ofDigits_pad8 (e : Nat) : Nat.ofDigitChars 10 (pad8 e).toList 0 = e := by
  have hlist : e.repr.toList = Nat.toDigits 10 e := Nat.toList_repr
  unfold pad8
  rw [String.toList_append, String.toList_ofList, Nat.ofDigitChars_append,
    Nat.ofDigitChars_replicate_zero, Nat.mul_zero, hlist, Nat.ofDigitChars_ten_toDigits]

theorem snapshotFileName_inj {a b : Nat} (h : snapshotFileName a = snapshotFileName b) : a = b := by
  have hlist := congrArg String.toList h
  unfold snapshotFileName at hlist
  simp only [String.toList_append] at hlist
  have hpad := List.append_cancel_left (List.append_cancel_right hlist)
  rw [← ofDigits_pad8 a, ← ofDigits_pad8 b, hpad]

/-! ## What a snapshot carries -/

section

variable {L : Ledger} {d : Database} {pedersen : Felt → Felt → Felt} {cfg : ChainConfig}

/-- Storage rows belong to stored blocks, so the slot set is ascending and written at or
below the basis. -/
theorem slotsWf_buildSnapshot (hlinked : d.Linked) (hnumbered : d.NumberedBy L) {epoch basis : Nat}
    (hbasis : basis < 2 ^ 63) (contentHash : Key) :
    Snapshot.SlotsWf basis (buildSnapshot pedersen cfg d epoch contentHash basis).slots := by
  have hrow : ∀ s ∈ (buildSnapshot pedersen cfg d epoch contentHash basis).slots,
      ∃ e ∈ latestRows d.storageLog (toI64 basis), s = ⟨e.1.1, e.2, toU64 e.1.2⟩ ∧ e.2 ≠ 0 := by
    intro s hs
    obtain ⟨t, ht, rfl⟩ := List.mem_map.mp hs
    obtain ⟨ht, hne⟩ := List.mem_filter.mp ht
    obtain ⟨e, he, rfl⟩ := List.mem_map.mp ht
    exact ⟨e, he, rfl, of_decide_eq_true hne⟩
  refine ⟨fun s hs => ?_, fun s hs => ?_, ?_⟩
  · obtain ⟨e, -, rfl, hne⟩ := hrow s hs
    exact hne
  · obtain ⟨e, he, rfl, -⟩ := hrow s hs
    obtain ⟨hle, hget, -⟩ := asOf_eq_some_iff.mp (mem_latestRows.mp he)
    obtain ⟨r, hr⟩ := Option.isSome_iff_exists.mp
      (hlinked.storage e.1.1 e.1.2 (Option.isSome_iff_exists.mpr ⟨_, hget⟩))
    have hheight := (hnumbered e.1.2 r hr).height
    rw [Consumer.toI64_of_lt hbasis] at hle
    show toU64 e.1.2 ≤ basis
    unfold toU64
    omega
  · refine List.Pairwise.isChain ?_
    have hrows : (latestRows d.storageLog (toI64 basis)).Pairwise fun a b => a.1.1.val < b.1.1.val := by
      have hordered : (latestRows d.storageLog (toI64 basis)).Pairwise fun a b =>
          pairCmp a.1 b.1 = .lt := (ExtTreeMap.ordered_keys_toList (t := d.storageLog)).filter _
      refine (hordered.and (latestRows_keys d.storageLog (toI64 basis))).imp ?_
      rintro a b ⟨hlt, hne⟩
      rcases pairCmp_eq_lt.mp hlt with hkey | ⟨hsame, -⟩
      · exact hkey
      · exact absurd hsame hne
    unfold buildSnapshot Database.fullSlotSetWithBlocksAsOf
    refine List.pairwise_map.mpr (List.Pairwise.filter _ (List.pairwise_map.mpr hrows))

theorem buildSnapshot_root (epoch basis : Nat) (contentHash : Key) :
    Mpt.storageRoot pedersen
        ((buildSnapshot pedersen cfg d epoch contentHash basis).slots.map fun s => (s.k, s.v)) =
      (buildSnapshot pedersen cfg d epoch contentHash basis).header.storageRoot := by
  unfold buildSnapshot
  simp only [List.map_map]
  rfl

end

/-! ## Rows of snapshots and anchors -/

/-- The row that a manifest entry becomes. -/
def snapshotRecOf (P : FeltParser) (s : SnapshotEntry) : SnapshotRec :=
  let felt := fun text => (P.fromHex text).getD 0
  { block := toI64 s.block
    epochHash := s.epochHash
    file := s.file
    hash := s.hash
    zst := s.zst
    bytes := toI64 s.bytes
    slots := toI64 s.slots
    storageRoot := s.storageRoot
    anchor := s.anchor.map fun a =>
      (toI64 a.block, ⟨felt a.blockHash, felt a.storageRoot, felt a.cls⟩)
    grounding := s.grounding }

theorem toU64_anchorRecOf {a : Anchor} (h : a.block < 2 ^ 64) :
    toU64 (anchorRecOf a).1 = a.block := by
  have hblock := toU64_toI64 h
  unfold anchorRecOf
  simp only
  rw [hblock]

theorem snapshots_insertSnapshot (P : FeltParser) (d : Database) (s : SnapshotEntry) :
    (d.insertSnapshot P s).snapshots = d.snapshots.insert (toI64 s.e) (snapshotRecOf P s) := rfl

section

variable (P : FeltParser) (Z : Zstd) (pedersen : Felt → Felt → Felt) (cfg : ChainConfig)
variable (B : Anchor → Prop)

/-- A row that came of a snapshot: of a published epoch, folding to the root in its header,
and grounded in an anchor of its own block or in one that was seen above. -/
structure SnapshotOf (d : Database) (k : Int) (r : SnapshotRec) (snap : Snapshot)
    (anchor : Option Anchor) : Prop where
  key : (snap.header.epoch : Int) = k
  row : r = snapshotRecOf P (snapshotEntry Z snap anchor)
  wf : Snapshot.SnapshotWf snap
  feed : snap.header.chainId = cfg.chainId ∧ snap.header.pool = cfg.pool
  basis : ∃ e, d.epochs[k]? = some e ∧ snap.header.epochHash = hexEncode e.contentHash ∧
    e.toBlock = (snap.header.block : Int)
  root : Mpt.storageRoot pedersen (snap.slots.map fun s => (s.k, s.v)) = snap.header.storageRoot
  rooted : ∀ a, anchor = some a →
    B a ∧ a.block = snap.header.block ∧ a.storageRoot = snap.header.storageRoot
  reached : anchor = none → ∃ a, B a ∧ snap.header.block ≤ a.block

/-- The rows that pruning leaves. -/
def newestSnapshots (d : Database) : List (Int × SnapshotRec) :=
  d.snapshots.toList.drop (d.snapshots.toList.length - SNAPSHOT_KEEP)

/-- Anchors are vouched for, snapshots are grounded, and the newest have their files. -/
structure GroundedSite (x : Site) : Prop where
  anchors : ∀ (k : Int) (r : AnchorRec), x.database.anchors[k]? = some r →
    ∃ a, B a ∧ anchorRecOf a = (k, r)
  epochs : ∀ e ∈ x.database.epochs.toList, ∀ ar, e.2.anchor = some ar →
    ∃ a, B a ∧ anchorRecOf a = ar ∧ (a.block : Int) = e.2.toBlock
  rows : ∀ (k : Int) (r : SnapshotRec), x.database.snapshots[k]? = some r →
    ∃ snap anchor, SnapshotOf P Z pedersen cfg B x.database k r snap anchor
  files : ∀ e ∈ newestSnapshots x.database, ∃ snap anchor,
    SnapshotOf P Z pedersen cfg B x.database e.1 e.2 snap anchor ∧
      x.dir.snapshots[e.2.file]? = some (Z.compress (Snapshot.encode snap))

end

section

variable {L : Ledger} {P : FeltParser} {Z : Zstd} {pedersen : Felt → Felt → Felt}
variable {cfg : ChainConfig} {B : Anchor → Prop} {low : Database → Int} {K : Database → Prop}
variable {x y : Site} {d d' : Database} {k : Int} {r : SnapshotRec} {snap : Snapshot}
variable {anchor : Option Anchor}

theorem SnapshotOf.file (h : SnapshotOf P Z pedersen cfg B d k r snap anchor) :
    r.file = snapshotFileName snap.header.epoch := by
  rw [h.row]
  rfl

/-- Rows under different keys have different files. -/
theorem SnapshotOf.file_ne {k' : Int} {r' : SnapshotRec} {snap' : Snapshot} {anchor' : Option Anchor}
    (h : SnapshotOf P Z pedersen cfg B d k r snap anchor)
    (h' : SnapshotOf P Z pedersen cfg B d k' r' snap' anchor') (hne : k ≠ k') : r.file ≠ r'.file := by
  rw [h.file, h'.file]
  intro heq
  have hepoch := snapshotFileName_inj heq
  exact hne (by rw [← h.key, ← h'.key, hepoch])

theorem SnapshotOf.mono (h : SnapshotOf P Z pedersen cfg B d k r snap anchor)
    (hepochs : ∀ (k : Int) (e : EpochRec), d.epochs[k]? = some e → d'.epochs[k]? = some e) :
    SnapshotOf P Z pedersen cfg B d' k r snap anchor := by
  obtain ⟨e, he, hbasis⟩ := h.basis
  exact ⟨h.key, h.row, h.wf, h.feed, ⟨e, hepochs k e he, hbasis⟩, h.root, h.rooted, h.reached⟩

theorem mem_newestSnapshots {e : Int × SnapshotRec} (he : e ∈ newestSnapshots d) :
    d.snapshots[e.1]? = some e.2 :=
  ExtTreeMap.mem_toList_iff_getElem?_eq_some.mp (List.mem_of_mem_drop he)

/-- A step that leaves the table of snapshots. -/
theorem GroundedSite.keep (h : GroundedSite P Z pedersen cfg B x)
    (hsnapshots : y.database.snapshots = x.database.snapshots)
    (hepochs : ∀ (k : Int) (e : EpochRec), x.database.epochs[k]? = some e →
      y.database.epochs[k]? = some e)
    (hanchors : ∀ (k : Int) (r : AnchorRec), y.database.anchors[k]? = some r →
      x.database.anchors[k]? = some r ∨ ∃ a, B a ∧ anchorRecOf a = (k, r))
    (hnew : ∀ e ∈ y.database.epochs.toList, e ∈ x.database.epochs.toList ∨
      ∀ ar, e.2.anchor = some ar → ∃ a, B a ∧ anchorRecOf a = ar ∧ (a.block : Int) = e.2.toBlock)
    (hfiles : ∀ e ∈ newestSnapshots x.database,
      y.dir.snapshots[e.2.file]? = x.dir.snapshots[e.2.file]?) :
    GroundedSite P Z pedersen cfg B y := by
  refine ⟨fun k r hr => ?_, fun e he ar har => ?_, fun k r hr => ?_, fun e he => ?_⟩
  · rcases hanchors k r hr with hold | hnew
    · exact h.anchors k r hold
    · exact hnew
  · rcases hnew e he with hold | hnew
    · exact h.epochs e hold ar har
    · exact hnew ar har
  · rw [hsnapshots] at hr
    obtain ⟨snap, anchor, hof⟩ := h.rows k r hr
    exact ⟨snap, anchor, hof.mono hepochs⟩
  · have he' : e ∈ newestSnapshots x.database := by
      unfold newestSnapshots at he ⊢
      rwa [hsnapshots] at he
    obtain ⟨snap, anchor, hof, hfile⟩ := h.files e he'
    exact ⟨snap, anchor, hof.mono hepochs, (hfiles e he').trans hfile⟩

/-- Nothing of it is touched. -/
theorem GroundedSite.same (h : GroundedSite P Z pedersen cfg B x)
    (hsnapshots : y.database.snapshots = x.database.snapshots)
    (hepochs : y.database.epochs = x.database.epochs)
    (hanchors : ∀ (k : Int) (r : AnchorRec), y.database.anchors[k]? = some r →
      x.database.anchors[k]? = some r ∨ ∃ a, B a ∧ anchorRecOf a = (k, r))
    (hfiles : ∀ e ∈ newestSnapshots x.database,
      y.dir.snapshots[e.2.file]? = x.dir.snapshots[e.2.file]?) :
    GroundedSite P Z pedersen cfg B y := by
  refine h.keep hsnapshots (fun k e he => ?_) hanchors (fun e he => Or.inl ?_) hfiles
  · rwa [hepochs]
  · rwa [hepochs] at he

/-- A step of that table, with the directory left alone. -/
theorem GroundedSite.table (h : GroundedSite P Z pedersen cfg B x)
    (hepochs : y.database.epochs = x.database.epochs)
    (hanchors : y.database.anchors = x.database.anchors) (hdir : y.dir = x.dir)
    (hrows : ∀ (k : Int) (r : SnapshotRec), y.database.snapshots[k]? = some r →
      x.database.snapshots[k]? = some r ∨
        ∃ snap anchor, SnapshotOf P Z pedersen cfg B x.database k r snap anchor)
    (hnewest : ∀ e ∈ newestSnapshots y.database, e ∈ newestSnapshots x.database ∨
      ∃ snap anchor, SnapshotOf P Z pedersen cfg B x.database e.1 e.2 snap anchor ∧
        x.dir.snapshots[e.2.file]? = some (Z.compress (Snapshot.encode snap))) :
    GroundedSite P Z pedersen cfg B y := by
  have hmono : ∀ (k : Int) (e : EpochRec), x.database.epochs[k]? = some e →
      y.database.epochs[k]? = some e := by
    intro k e he
    rwa [hepochs]
  refine ⟨?_, ?_, fun k r hr => ?_, fun e he => ?_⟩
  · rw [hanchors]
    exact h.anchors
  · rw [hepochs]
    exact h.epochs
  · have hof : ∃ snap anchor, SnapshotOf P Z pedersen cfg B x.database k r snap anchor := by
      rcases hrows k r hr with hold | hnew
      · exact h.rows k r hold
      · exact hnew
    obtain ⟨snap, anchor, hof⟩ := hof
    exact ⟨snap, anchor, hof.mono hmono⟩
  · have hof : ∃ snap anchor, SnapshotOf P Z pedersen cfg B x.database e.1 e.2 snap anchor ∧
        x.dir.snapshots[e.2.file]? = some (Z.compress (Snapshot.encode snap)) := by
      rcases hnewest e he with hold | hnew
      · exact h.files e hold
      · exact hnew
    obtain ⟨snap, anchor, hof, hfile⟩ := hof
    rw [hdir]
    exact ⟨snap, anchor, hof.mono hmono, hfile⟩

/-- An anchor at or above a block that can be reached. -/
theorem anchor_of_reachable (hB : ∀ a, B a → a.block < 2 ^ 64)
    (hanchors : ∀ (k : Int) (r : AnchorRec), d.anchors[k]? = some r → ∃ a, B a ∧ anchorRecOf a = (k, r))
    {basis : Nat} (h : reachable d basis = true) : ∃ a, B a ∧ basis ≤ a.block := by
  unfold reachable Database.newestAnchorBlock at h
  cases hlast : d.anchors.keys.getLast? with
  | none =>
      rw [hlast] at h
      cases h
  | some k =>
      rw [hlast] at h
      have hmem : k ∈ d.anchors := ExtTreeMap.mem_keys.mp (List.mem_of_getLast? hlast)
      obtain ⟨r, hr⟩ := Option.isSome_iff_exists.mp (ExtTreeMap.mem_iff_isSome_getElem?.mp hmem)
      obtain ⟨a, ha, hrec⟩ := hanchors k r hr
      have hkey : toU64 k = a.block := by
        rw [← toU64_anchorRecOf (hB a ha), hrec]
      simp only [Option.map_some, decide_eq_true_eq] at h
      rw [hkey] at h
      exact ⟨a, ha, h⟩

/-- A snapshot that may be published has the last epoch's key. -/
theorem Grounded.last (hs : Sound L d) (hlined : Lined cfg cfg.firstEpoch none d.epochs.toList)
    (h : Grounded pedersen cfg B d snap anchor) :
    ∃ e, d.epochs.toList.getLast? = some ((snap.header.epoch : Int), e) ∧ snap.header.epoch < 2 ^ 63 ∧
      snap.header.block < 2 ^ 63 ∧ e.toBlock = (snap.header.block : Int) ∧
        snap = buildSnapshot pedersen cfg d snap.header.epoch e.contentHash snap.header.block := by
  obtain ⟨contentHash, hlast, hsnap⟩ := h.newest
  unfold Database.lastEpoch at hlast
  obtain ⟨⟨k, e⟩, hget, heq⟩ := Option.map_eq_some_iff.mp hlast
  obtain ⟨hepoch, hrest⟩ := Prod.mk.inj heq
  obtain ⟨rfl, hblock⟩ := Prod.mk.inj hrest
  have hmem := List.mem_of_getLast? hget
  obtain ⟨-, hhigh⟩ := hs.columns.epochs k e (ExtTreeMap.mem_toList_iff_getElem?_eq_some.mp hmem)
  obtain ⟨j, -, -, hidx, -, hto, hfit⟩ := hlined.mem hmem
  simp only at hidx hto hepoch hblock
  have hkey : k = (snap.header.epoch : Int) := by
    rw [← hepoch]
    unfold toU64
    omega
  have hend : e.toBlock = (snap.header.block : Int) := by
    rw [← hblock]
    unfold toU64
    omega
  exact ⟨e, by rw [hget, hkey], by omega, by omega, hend, hsnap⟩

/-- The row that it gets. -/
theorem Grounded.snapshotOf (hchain : Json.PlainStr cfg.chainId) (hB : ∀ a, B a → a.block < 2 ^ 64)
    (hs : Sound L d) (hlined : Lined cfg cfg.firstEpoch none d.epochs.toList)
    (hanchors : ∀ (k : Int) (r : AnchorRec), d.anchors[k]? = some r → ∃ a, B a ∧ anchorRecOf a = (k, r))
    (h : Grounded pedersen cfg B d snap anchor) :
    SnapshotOf P Z pedersen cfg B d snap.header.epoch (snapshotRecOf P (snapshotEntry Z snap anchor))
      snap anchor := by
  obtain ⟨e, hget, hepoch, hblock, hend, hsnap⟩ := h.last hs hlined
  have hslots := congrArg Snapshot.slots hsnap
  refine ⟨rfl, rfl, ⟨congrArg (·.header.v) hsnap, congrArg (·.header.kind) hsnap, ?_, ?_,
    lt_trans hepoch (by norm_num), lt_trans hblock (by norm_num), ?_⟩,
    ⟨congrArg (·.header.chainId) hsnap, congrArg (·.header.pool) hsnap⟩,
    ⟨e, ?_, congrArg (·.header.epochHash) hsnap, hend⟩, ?_, h.rooted,
    fun hnone => anchor_of_reachable hB hanchors (h.reached hnone)⟩
  · have hfeed : snap.header.chainId = cfg.chainId := congrArg (·.header.chainId) hsnap
    rw [hfeed]
    exact hchain
  · have hhash : snap.header.epochHash = hexEncode e.contentHash := congrArg (·.header.epochHash) hsnap
    rw [hhash]
    exact plainStr_hexEncode _
  · rw [hslots]
    exact slotsWf_buildSnapshot hs.steady.linked hs.steady.numbered hblock _
  · exact ExtTreeMap.mem_toList_iff_getElem?_eq_some.mp (List.mem_of_getLast? hget)
  · rw [hslots, buildSnapshot_root]
    exact (congrArg (·.header.storageRoot) hsnap).symm

/-- Its key is above those of the rows that are there. -/
theorem Grounded.above (hs : Sound L d) (hlined : Lined cfg cfg.firstEpoch none d.epochs.toList)
    (hrows : ∀ (k : Int) (r : SnapshotRec), d.snapshots[k]? = some r →
      ∃ snap anchor, SnapshotOf P Z pedersen cfg B d k r snap anchor)
    (h : Grounded pedersen cfg B d snap anchor) {k : Int} (hk : d.snapshots[k]? = some r) :
    k < (snap.header.epoch : Int) := by
  obtain ⟨e, hget, hepoch, -⟩ := h.last hs hlined
  obtain ⟨snap', anchor', hof⟩ := hrows k r hk
  obtain ⟨e', he', -⟩ := hof.basis
  have hmem := ExtTreeMap.mem_toList_iff_getElem?_eq_some.mpr he'
  rcases le_getLast hget hmem with heq | hlt
  · exfalso
    have hkey : k = (snap.header.epoch : Int) := congrArg Prod.fst heq
    refine h.fresh (snapshotEntryOf k r)
      (List.mem_map_of_mem (f := fun e : Int × SnapshotRec => snapshotEntryOf e.1 e.2)
        (ExtTreeMap.mem_toList_iff_getElem?_eq_some.mpr hk)) ?_
    show toU64 k = snap.header.epoch
    rw [hkey]
    unfold toU64
    omega
  · exact compare_lt_iff_lt.mp hlt

/-! ## Steps -/

/-- Listings with a new last row. -/
theorem newestSnapshots_insert (hd' : d'.snapshots = d.snapshots.insert k r)
    (habove : ∀ (k' : Int) (r' : SnapshotRec), d.snapshots[k']? = some r' → k' < k)
    {e : Int × SnapshotRec} (he : e ∈ newestSnapshots d') : e ∈ newestSnapshots d ∨ e = (k, r) := by
  have hlist : d'.snapshots.toList = d.snapshots.toList ++ [(k, r)] := by
    rw [hd']
    refine toList_insert_last r fun e he => compare_lt_iff_lt.mpr ?_
    exact habove e.1 e.2 (ExtTreeMap.mem_toList_iff_getElem?_eq_some.mp he)
  unfold newestSnapshots at he ⊢
  rw [hlist, List.length_append, List.length_singleton, List.drop_append] at he
  rcases List.mem_append.mp he with hold | hnew
  · exact Or.inl ((List.drop_sublist_drop_left _ (by omega)).subset hold)
  · exact Or.inr (List.mem_singleton.mp (List.mem_of_mem_drop hnew))

/-- The row that goes is not among the newest. -/
theorem newestSnapshots_cons {rest : List (Int × SnapshotRec)}
    (hlist : d.snapshots.toList = (k, r) :: rest) (hkeep : SNAPSHOT_KEEP ≤ rest.length) :
    newestSnapshots d = rest.drop (rest.length - SNAPSHOT_KEEP) := by
  unfold newestSnapshots
  rw [hlist, List.length_cons, show rest.length + 1 - SNAPSHOT_KEEP =
    (rest.length - SNAPSHOT_KEEP) + 1 by omega, List.drop_succ_cons]

theorem snapshotRows_cons {old : SnapshotEntry} {rest : List SnapshotEntry}
    (h : d.snapshotRows = old :: rest) : ∃ k r rows, d.snapshots.toList = (k, r) :: rows ∧
      old = snapshotEntryOf k r ∧ rows.length = rest.length := by
  unfold Database.snapshotRows at h
  obtain ⟨⟨k, r⟩, rows, hlist, rfl, rfl⟩ := List.map_eq_cons_iff.mp h
  exact ⟨k, r, rows, hlist, rfl, (List.length_map _).symm⟩

/-- A new epoch's row leaves those that are there. -/
theorem epochs_insertEpoch_mono (hcols : d.Columns64) (hlt : nextEpoch cfg d < 2 ^ 63) (r : EpochRec)
    (k : Int) (e : EpochRec) (he : d.epochs[k]? = some e) :
    (d.insertEpoch (nextEpoch cfg d) r).epochs[k]? = some e := by
  rw [← ExtTreeMap.mem_toList_iff_getElem?_eq_some] at he ⊢
  rw [toList_insertEpoch hcols hlt]
  exact List.mem_append_left _ he

/-- **A write of the cutter** keeps anchors vouched for and snapshots grounded. -/
theorem CutStep.grounded (hchain : Json.PlainStr cfg.chainId) (hB : ∀ a, B a → a.block < 2 ^ 64)
    (hstep : CutStep P Z pedersen cfg B x y) (hs : Sound L x.database) (hpub : Published cfg Z x)
    (h : GroundedSite P Z pedersen cfg B x) : GroundedSite P Z pedersen cfg B y := by
  cases hstep with
  | anchor a ha =>
      refine h.same rfl rfl (fun k r hr => ?_) fun _ _ => rfl
      have hget : (x.database.anchors.insert (anchorRecOf a).1 (anchorRecOf a).2)[k]? = some r := hr
      rw [getElem?_insert_eq] at hget
      split at hget
      · rename_i hk
        obtain rfl := Option.some.inj hget
        exact Or.inr ⟨a, ha, Prod.ext hk.symm rfl⟩
      · exact Or.inl hget
  | pruneAnchors =>
      refine h.same rfl rfl (fun k r hr => Or.inl ?_) fun _ _ => rfl
      unfold Database.pruneAnchors at hr
      simp only at hr
      rw [getElem?_filter_key x.database.anchors fun n =>
        ((x.database.anchors.keys.reverse).take ANCHOR_KEEP).contains n] at hr
      split at hr
      · exact hr
      · cases hr
  | @epochRow payload anchor cutAt hlt hcut hfile hfinal hscanned hanchor =>
      obtain ⟨-, -, hfrontier⟩ := hs.steady.frontier
      refine h.keep rfl (epochs_insertEpoch_mono hs.columns hlt _) (fun k r hr => Or.inl hr)
        (fun e he => ?_) fun _ _ => rfl
      rw [toList_insertEpoch hs.columns hlt] at he
      rcases List.mem_append.mp he with hold | hnew
      · exact Or.inl hold
      · -- the row that is new carries the anchor of its own last block
        obtain rfl := List.mem_singleton.mp hnew
        refine Or.inr fun ar har => ?_
        obtain ⟨a, ha, rfl⟩ := Option.map_eq_some_iff.mp har
        obtain ⟨hvouched, hblock⟩ := hanchor a ha
        refine ⟨a, hvouched, rfl, ?_⟩
        rw [hblock]
        exact (cutRec_range _ _ _ _ (by omega)).2.symm
  -- the new file has a name of its own: the listed ones stay as they are
  | @snapshotFile snap anchor hgrounded =>
      refine h.same rfl rfl (fun k r hr => Or.inl hr) fun e he => ?_
      obtain ⟨snap', anchor', hof⟩ := h.rows e.1 e.2 (mem_newestSnapshots he)
      have habove := hgrounded.above hs hpub.lined h.rows (mem_newestSnapshots he)
      have hnew := hgrounded.snapshotOf (P := P) (Z := Z) hchain hB hs hpub.lined h.anchors
      rw [getElem?_insert_eq, if_neg]
      exact hof.file_ne hnew (by omega)
  | @snapshotRow snap anchor hgrounded hfile =>
      obtain ⟨-, -, hepoch, -⟩ := hgrounded.last hs hpub.lined
      have hnew := hgrounded.snapshotOf (P := P) (Z := Z) hchain hB hs hpub.lined h.anchors
      have hrows : (x.database.insertSnapshot P (snapshotEntry Z snap anchor)).snapshots =
          x.database.snapshots.insert (snap.header.epoch : Int)
            (snapshotRecOf P (snapshotEntry Z snap anchor)) := by
        have hkey : toI64 (snapshotEntry Z snap anchor).e = (snap.header.epoch : Int) :=
          Consumer.toI64_of_lt hepoch
        rw [snapshots_insertSnapshot, hkey]
      refine h.table rfl rfl rfl (fun k r hr => ?_) fun e he => ?_
      · rw [hrows, getElem?_insert_eq] at hr
        split at hr
        · rename_i hk
          obtain rfl := Option.some.inj hr
          rw [hk]
          exact Or.inr ⟨snap, anchor, hnew⟩
        · exact Or.inl hr
      · rcases newestSnapshots_insert hrows
          (fun k' r' hr' => hgrounded.above hs hpub.lined h.rows hr') he with hold | rfl
        · exact Or.inl hold
        · exact Or.inr ⟨snap, anchor, hnew, hfile⟩
  -- the oldest row is past the kept ones, so its file is not among the listed
  | dropFile hold hkeep =>
      obtain ⟨k, r, rows, hlist, rfl, hlength⟩ := snapshotRows_cons hold
      rw [← hlength] at hkeep
      refine h.same rfl rfl (fun k r hr => Or.inl hr) fun e he => ?_
      have hrow := mem_newestSnapshots he
      rw [newestSnapshots_cons hlist hkeep] at he
      have hfirst : x.database.snapshots[k]? = some r := by
        rw [← ExtTreeMap.mem_toList_iff_getElem?_eq_some, hlist]
        exact List.mem_cons_self
      obtain ⟨snap, anchor, hof⟩ := h.rows k r hfirst
      obtain ⟨snap', anchor', hof'⟩ := h.rows e.1 e.2 hrow
      have hne : k ≠ e.1 := by
        have hkeys := toList_keys_ne x.database.snapshots
        rw [hlist] at hkeys
        exact (List.pairwise_cons.mp hkeys).1 e (List.mem_of_mem_drop he)
      rw [getElem?_erase_eq, if_neg]
      exact hof'.file_ne hof hne.symm
  | dropRow hold hkeep =>
      obtain ⟨k, r, rows, hlist, rfl, hlength⟩ := snapshotRows_cons hold
      rw [← hlength] at hkeep
      have hfirst : x.database.snapshots[k]? = some r := by
        rw [← ExtTreeMap.mem_toList_iff_getElem?_eq_some, hlist]
        exact List.mem_cons_self
      obtain ⟨hlow, hhigh⟩ := hs.columns.snapshots k r hfirst
      have hrows : (x.database.deleteSnapshot (snapshotEntryOf k r).e).snapshots =
          x.database.snapshots.erase k :=
        congrArg x.database.snapshots.erase (toI64_toU64 hlow hhigh)
      refine h.table rfl rfl rfl (fun k' r' hr => Or.inl ?_) fun e he => Or.inl ?_
      · rw [hrows, getElem?_erase_eq] at hr
        split at hr
        · cases hr
        · exact hr
      · unfold newestSnapshots at he
        rw [hrows, toList_erase_head hlist] at he
        rw [newestSnapshots_cons hlist hkeep]
        exact he
  | _ => exact h.same rfl rfl (fun k r hr => Or.inl hr) fun _ _ => rfl

/-- What is read and what is repaired has neither. -/
theorem Kept.grounded {n m : Int} (hkept : Kept L n m x.database d)
    (h : GroundedSite P Z pedersen cfg B x) :
    GroundedSite P Z pedersen cfg B { x with database := d } :=
  h.same hkept.snapshots hkept.epochs (fun k r hr => Or.inl (hkept.anchors k r hr)) fun _ _ => rfl

theorem SitePath.grounded (hchain : Json.PlainStr cfg.chainId) (hB : ∀ a, B a → a.block < 2 ^ 64)
    (hpath : SitePath L P Z pedersen cfg B low K x y) (hs : Sound L x.database)
    (hpub : Published cfg Z x) (h : GroundedSite P Z pedersen cfg B x) :
    GroundedSite P Z pedersen cfg B y := by
  induction hpath with
  | refl => exact h
  | tail hpath hstep ih =>
      cases hstep with
      | cut hcut =>
          exact hcut.grounded hchain hB (SitePath.sound hpath hs)
            (SitePath.published hpath hs hpub).1 ih
      | ingest _ hkept => exact hkept.grounded ih
      | repair _ hkept => exact hkept.grounded ih

/-! ## What a consumer makes of a snapshot -/

theorem toU64_toI64_mod (n : Nat) : toU64 (toI64 n) = n % 2 ^ 64 := by
  have hmod : toI64 n = toI64 (n % 2 ^ 64) := by
    unfold toI64
    rw [Nat.mod_mod]
  rw [hmod, toU64_toI64 (Nat.mod_lt _ (by norm_num))]

/-- Epoch and basis of an entry are those of its snapshot. -/
theorem SnapshotOf.entry (h : SnapshotOf P Z pedersen cfg B d k r snap anchor) :
    toU64 k = snap.header.epoch ∧ toU64 r.block = snap.header.block := by
  constructor
  · rw [← h.key]
    have := h.wf.epoch
    unfold toU64
    omega
  · have hblock : toU64 (toI64 snap.header.block) = snap.header.block := toU64_toI64 h.wf.block
    rw [h.row]
    unfold snapshotRecOf snapshotEntry
    simp only
    rw [hblock]

/-- A row with a file: the consumer decodes the snapshot that was encoded. -/
theorem SnapshotOf.decoded (J : JsonParser) (h : SnapshotOf P Z pedersen cfg B d k r snap anchor) :
    Snapshot.decodeSnapshotPayload P J (Snapshot.encode snap)
      (hexEncode (payloadSha256 (Z.compress (Snapshot.encode snap))))
      (snapshotEntryOf k r).toManifestSnapshot snap.header.epochHash ⟨cfg.chainId, cfg.pool⟩ =
        .ok snap := by
  obtain ⟨hchain, hpool⟩ := h.feed
  obtain ⟨hepoch, -⟩ := h.entry
  have hblock : toU64 (toI64 snap.header.block) = snap.header.block := toU64_toI64 h.wf.block
  have hslots : toU64 (toI64 snap.slots.length) = Snapshot.slotCount snap.slots :=
    toU64_toI64_mod snap.slots.length
  have hentry : (snapshotEntryOf k r).toManifestSnapshot =
      ⟨snap.header.epoch, snap.header.block, snap.header.epochHash,
        snapshotFileName snap.header.epoch, hexEncode (payloadSha256 (Snapshot.encode snap)),
        hexEncode (payloadSha256 (Z.compress (Snapshot.encode snap))),
        Snapshot.slotCount snap.slots⟩ := by
    rw [h.row]
    unfold snapshotEntryOf snapshotRecOf snapshotEntry
    simp only
    rw [hepoch, hblock, hslots]
  rw [hentry]
  exact (Snapshot.decodeSnapshotPayload_eq_ok P J).mpr
    ⟨rfl, rfl, Snapshot.parse_encode P J h.wf, hchain, hpool, rfl, rfl, rfl, rfl, rfl, rfl⟩

/-- A snapshot that a consumer can start from: its file decodes against its entry and the
epoch that it is of, and folds to the root that it claims. -/
def Startable (P : FeltParser) (J : JsonParser) (Z : Zstd) (pedersen : Felt → Felt → Felt)
    (cfg : ChainConfig) (x : Site) (s : SnapshotEntry) : Prop :=
  ∃ snap e, x.dir.snapshots[s.file]? = some (Z.compress (Snapshot.encode snap)) ∧
    x.database.epochs[(s.e : Int)]? = some e ∧ e.toBlock = (s.block : Int) ∧
    Snapshot.decodeSnapshotPayload P J (Snapshot.encode snap)
      (hexEncode (payloadSha256 (Z.compress (Snapshot.encode snap)))) s.toManifestSnapshot
      (hexEncode e.contentHash) ⟨cfg.chainId, cfg.pool⟩ = .ok snap ∧
    Mpt.storageRoot pedersen (snap.slots.map fun s => (s.k, s.v)) = snap.header.storageRoot

/-- The manifest names the newest row. -/
theorem GroundedSite.startable (J : JsonParser) (h : GroundedSite P Z pedersen cfg B x)
    {s : SnapshotEntry} (hs : (manifestOf cfg x.database).snapshot = some s) :
    Startable P J Z pedersen cfg x s := by
  have hlast : (x.database.snapshots.toList.map fun e => snapshotEntryOf e.1 e.2).getLast? = some s :=
    hs
  rw [List.getLast?_map] at hlast
  obtain ⟨⟨k, r⟩, hget, rfl⟩ := Option.map_eq_some_iff.mp hlast
  have hnewest : (k, r) ∈ newestSnapshots x.database := by
    obtain ⟨pre, hpre⟩ := List.getLast?_eq_some_iff.mp hget
    unfold newestSnapshots
    have hle : pre.length + 1 - SNAPSHOT_KEEP ≤ pre.length := by
      unfold SNAPSHOT_KEEP
      omega
    rw [hpre, List.length_append, List.length_singleton, List.drop_append_of_le_length hle]
    exact List.mem_append_right _ List.mem_cons_self
  obtain ⟨snap, anchor, hof, hfile⟩ := h.files _ hnewest
  obtain ⟨e, he, hhash, hend⟩ := hof.basis
  obtain ⟨hepoch, hblock⟩ := hof.entry
  refine ⟨snap, e, hfile, ?_, ?_, ?_, hof.root⟩
  · show x.database.epochs[((toU64 k : Nat) : Int)]? = some e
    rw [hepoch, hof.key]
    exact he
  · show e.toBlock = ((toU64 r.block : Nat) : Int)
    rw [hblock]
    exact hend
  · rw [← hhash]
    exact hof.decoded J

/-! ## Runs from the first start -/

/-- The endpoints of a run, each keeping to what hashes commit to. -/
def NamesAmong (L : Ledger) (P : FeltParser) (R : Set RpcClient) :
    Publisher → RpcClient → Command → Prop :=
  fun _ rpc _ => rpc ∈ R ∧ Names L P rpc

/-- An anchor that one of the run's endpoints vouched for. -/
def Proven (L : Ledger) (P : FeltParser) (R : Set RpcClient) (a : Anchor) : Prop :=
  ∃ rpc ∈ R, Names L P rpc ∧ Vouched P rpc a

theorem Publisher.Fresh.grounded {s : Publisher} (h : s.Fresh) :
    GroundedSite P Z pedersen cfg B s.site := by
  have hdatabase : s.site.database = Database.new := h.database
  refine ⟨fun k r hr => ?_, fun e he => ?_, fun k r hr => ?_, fun e he => ?_⟩
  · rw [hdatabase] at hr
    simp [Database.new] at hr
  · rw [hdatabase] at he
    cases he
  · rw [hdatabase] at hr
    simp [Database.new] at hr
  · rw [hdatabase] at he
    cases he

variable {chunkSize : Nat} {s t : Publisher}

/-- **What is published is grounded.** In every run from the first start, at every point
where it may stop: the anchors on record, and those of epochs, are read off proofs of the
run's own endpoints that name their block's own hash; every snapshot on record is of a
published epoch, folds to the root that it claims and is either confirmed by such a proof of
its basis or lies below an anchor that was seen; and the snapshot that a manifest written now
would name has its file, which a consumer decodes. -/
theorem published_grounded (J : JsonParser) (R : Set RpcClient) (hchain : Json.PlainStr cfg.chainId)
    (hfresh : s.Fresh) (hrun : LoopRun P Z pedersen cfg chunkSize (NamesAmong L P R) s t) :
    GroundedSite P Z pedersen cfg (Proven L P R) t.site ∧
      ∀ snapshot, (manifestOf cfg t.host.database).snapshot = some snapshot →
        Startable P J Z pedersen cfg t.site snapshot := by
  have hpath : SitePath L P Z pedersen cfg (Proven L P R) (fun _ => -1) (fun _ => True)
      s.site t.site :=
    loopRun_path (fun _ _ _ h => h)
      (fun u rpc c hok _ _ => permitted_named hok.2 (fun a ha => ⟨rpc, hok.1, hok.2, ha⟩)
        (Command.above_all P Z pedersen cfg chunkSize u rpc c))
      hfresh.sound trivial hrun
  have hB : ∀ a, Proven L P R a → a.block < 2 ^ 64 := by
    rintro a ⟨rpc, -, -, hlt, -⟩
    exact hlt
  have hgrounded := SitePath.grounded hchain hB hpath hfresh.sound hfresh.published hfresh.grounded
  exact ⟨hgrounded, fun snapshot hsnapshot => hgrounded.startable J hsnapshot⟩

/-- A backfill from an endpoint that proves the slot of block 2. -/
def attested : Publisher :=
  Effect.final ((Command.backfill unserved).run hexParser plainZstd sumHash
    (pastEpoch.attesting poolAtOne.pool 2) poolAtOne 1024 (unpublished.granted 100))

/-- Anchors of blocks 3 and 5, the first of them the epoch's, and a snapshot of the one slot. -/
theorem attested_records :
    attested.host.database.anchors.keys = [3, 5] ∧
    attested.host.database.epochs.toList.map (fun e => (e.1, e.2.anchor.map Prod.fst)) =
      [(0, some 3)] ∧
    attested.host.database.snapshotRows.map (fun r => (r.e, r.block, r.slots, r.grounding)) =
      [(0, 3, 1, GROUNDING_BASIS_ANCHOR)] := by
  decide +kernel

theorem published_grounded_attested :
    (attested.host.database.anchors.keys = [3, 5] ∧
      attested.host.database.snapshotRows.map (fun r => (r.e, r.block)) = [(0, 3)]) ∧
    GroundedSite hexParser plainZstd sumHash poolAtOne
        (Proven Chain.digits hexParser {pastEpoch.attesting poolAtOne.pool 2}) attested.site ∧
      ∀ snapshot, (manifestOf poolAtOne attested.host.database).snapshot = some snapshot →
        Startable hexParser Json.parser plainZstd sumHash poolAtOne attested.site snapshot := by
  obtain ⟨hanchors, -, hsnapshots⟩ := attested_records
  have hrows := congrArg (List.map fun r => (r.1, r.2.1)) hsnapshots
  rw [List.map_map] at hrows
  refine ⟨⟨hanchors, hrows⟩, published_grounded Json.parser {pastEpoch.attesting poolAtOne.pool 2}
    (plainStr_literal (by decide)) unpublished_fresh
    (LoopRun.command _ (.backfill unserved) 100 LoopRun.refl ⟨Set.mem_singleton _, ?_⟩)⟩
  refine (Chain.attesting_truthful (C := pastEpoch) hexParser poolAtOne 1024 2).names ?_
  show 5 + 1 < 2 ^ 63
  norm_num

end

end Strk20.Indexer
