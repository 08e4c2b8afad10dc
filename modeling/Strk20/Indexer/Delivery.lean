import Strk20.Consumer.Floor
import Strk20.Consumer.Shared
import Strk20.Indexer.Readable
import Strk20.Live.Stream

/-!
# From the publisher to a consumer (`cutter.rs`, `transport.rs`, `apply.rs`)

A consumer reads the directory that a run publishes into. Every file that a row names
holds what the rows encode to, so a consumer that replays the epochs returns `Ok`, and up
to the end of the last listed epoch its rows are the lines of the publisher's database.

- `FeedDir.transport`: the directory as the consumer's transport.
- `Carried`: files hold what the rows encode to, and verify.
- `published_delivered`: what a fresh consumer makes of it.
-/

namespace Strk20.Indexer

open Feed Feed.Codec Tables Json Result
open Consumer
  (toI64 toU64 toU64_toI64 FeedTransport AppliedEpoch verifyEpochs fetchEpoch skips LawfulStore
    SharedStore Row lastEpochTo applyFeed metaGet metaU64 pinned)
open Std (ExtTreeMap)
open Relation (ReflTransGen)

/-! ## The directory as a transport -/

/-- `manifest.json` as a consumer reads it. -/
def ManifestFile.read (m : ManifestFile) : Manifest :=
  ⟨m.chainId, m.epochs.map (·.toManifestEpoch), m.snapshot.map (·.toManifestSnapshot)⟩

/-- A file that is there. -/
def opened {α : Type} (file : Option α) (name : String) : Except Consumer.Failure α :=
  match file with
  | some content => .ok content
  | none => .error (.transport name)

theorem opened_some {α : Type} {file : Option α} {content : α} (h : file = some content)
    (name : String) : opened file name = .ok content := by
  rw [h]
  rfl

/-- `DirTransport`. -/
def FeedDir.transport (Z : Zstd) (dir : FeedDir) : FeedTransport where
  fetchGenesis := opened dir.genesis "genesis.json"
  fetchManifest := opened (dir.manifest.map ManifestFile.read) "manifest.json"
  fetchEpoch idx := opened dir.epochs[idx]? ("epochs/" ++ pad8 idx ++ ".strk20e.zst")
  fetchSnapshot e := opened dir.snapshots[snapshotFileName e]? (snapshotFileName e)
  fetchHead etag :=
    match dir.head with
    | none => .error (.transport "head.ndjson")
    | some bytes =>
        if etag = some (Live.etagOf bytes) then .ok none else .ok (some (bytes, Live.etagOf bytes))
  decompress bytes cap artifact :=
    match Z.expand bytes with
    | none => .error (.feed (.decompress artifact))
    | some payload =>
        if payload.size ≤ cap then .ok payload
        else .error (.feed (.decompressLimit artifact cap))

/-! ## Files and rows -/

section

variable {L : Ledger} {P : FeltParser} {J : JsonParser} {Z : Zstd} {pedersen : Felt → Felt → Felt}
variable {cfg : ChainConfig} {B : Anchor → Prop} {low : Database → Int} {x y : Site}

/-- The epoch that the rows give for a published one. -/
def Site.epoch (cfg : ChainConfig) (x : Site) (e : Int × EpochRec) : Epoch :=
  buildEpoch cfg x.database (toU64 e.1) e.2.prevHash

/-- A published epoch's file holds what the rows encode to, and verifies. -/
def CarriedRow (P : FeltParser) (J : JsonParser) (Z : Zstd) (cfg : ChainConfig) (x : Site)
    (e : Int × EpochRec) : Prop :=
  ∃ payload, x.dir.epochs[toU64 e.1]? = some (Z.compress payload) ∧
    Verified P J payload (epochRowOf e.1 e.2).entry.toManifestEpoch e.2.prevHash (x.epoch cfg e)

/-- Files hold what the rows encode to; genesis and manifest name the feed. -/
structure Carried (P : FeltParser) (J : JsonParser) (Z : Zstd) (cfg : ChainConfig) (x : Site) :
    Prop where
  rows : ∀ e ∈ x.database.epochs.toList, CarriedRow P J Z cfg x e
  genesis : ∀ genesis, x.dir.genesis = some genesis →
    genesis.chainId = cfg.chainId ∧ genesis.pool = feltHex cfg.pool
  manifest : ∀ manifest, x.dir.manifest = some manifest → manifest.chainId = cfg.chainId

theorem CarriedRow.congr {e : Int × EpochRec} (h : CarriedRow P J Z cfg x e)
    (hepoch : y.epoch cfg e = x.epoch cfg e)
    (hfile : y.dir.epochs[toU64 e.1]? = x.dir.epochs[toU64 e.1]?) : CarriedRow P J Z cfg y e := by
  obtain ⟨payload, hpayload, hverified⟩ := h
  refine ⟨payload, hfile.trans hpayload, ?_⟩
  rw [hepoch]
  exact hverified

/-- A write of the cutter keeps the rows carried. -/
theorem CutStep.carriedRows (hchain : PlainStr cfg.chainId)
    (hstep : CutStep P Z pedersen cfg B x y) (hs : Sound L x.database) (hd : OnSome L x.database)
    (hpub : Published cfg Z x) (hx : ∀ e ∈ x.database.epochs.toList, CarriedRow P J Z cfg x e) :
    ∀ e ∈ y.database.epochs.toList, CarriedRow P J Z cfg y e := by
  have hbuild : ∀ e, y.epoch cfg e = x.epoch cfg e := fun e =>
    hstep.sameMirror.buildEpoch cfg (toU64 e.1) e.2.prevHash
  have hfiles := (hstep.published hs hpub).2.files
  have hold : ∀ e ∈ x.database.epochs.toList, CarriedRow P J Z cfg y e := fun e he =>
    (hx e he).congr (hbuild e) (hfiles e he)
  intro e he
  rcases hstep.epochs_cases with
    hsame | ⟨payload, anchor, cutAt, hlt, hcut, hfile, hfinal, hscanned, -, rfl⟩
  · rw [hsame] at he
    exact hold e he
  · rw [toList_insertEpoch hs.columns hlt] at he
    rcases List.mem_append.mp he with hmem | hnew
    · exact hold e hmem
    · obtain rfl := List.mem_singleton.mp hnew
      obtain ⟨-, -, hfrontier⟩ := hs.steady.frontier
      have hverified := verified_cut P J Z anchor cutAt hchain hd hs.steady.numbered hlt (by omega) hcut
      have hkey : toU64 (nextEpoch cfg x.database : Int) = nextEpoch cfg x.database := by
        unfold toU64
        omega
      refine ⟨payload, ?_, ?_⟩
      · rw [hkey]
        exact hfile
      · rw [hbuild]
        unfold Site.epoch
        simp only
        rw [hkey]
        exact hverified

theorem CutStep.carried (hchain : PlainStr cfg.chainId) (hstep : CutStep P Z pedersen cfg B x y)
    (hs : Sound L x.database) (hd : OnSome L x.database) (hpub : Published cfg Z x)
    (hx : Carried P J Z cfg x) : Carried P J Z cfg y := by
  have hrows := hstep.carriedRows hchain hs hd hpub hx.rows
  cases hstep with
  | layout =>
      refine ⟨hrows, fun genesis hgenesis => ?_, hx.manifest⟩
      obtain rfl := Option.some.inj hgenesis
      cases hold : x.dir.genesis with
      | none => exact ⟨rfl, rfl⟩
      | some genesis => exact hx.genesis genesis hold
  | manifest =>
      refine ⟨hrows, hx.genesis, fun manifest hmanifest => ?_⟩
      obtain rfl := Option.some.inj hmanifest
      rfl
  | _ => exact ⟨hrows, hx.genesis, hx.manifest⟩

/-- What is kept up to the last epoch is carried as before. -/
theorem Kept.carried {m : Int} {d : Database} (hkept : Kept L x.database.settledUpto m x.database d)
    (hs : Sound L x.database) (hpub : Published cfg Z x) (hx : Carried P J Z cfg x) :
    Carried P J Z cfg { x with database := d } := by
  refine ⟨fun e he => ?_, hx.genesis, hx.manifest⟩
  have he : e ∈ x.database.epochs.toList := by
    rw [← hkept.epochs]
    exact he
  refine (hx.rows e he).congr ?_ rfl
  obtain ⟨j, -, -, hidx, -, hto, hfit⟩ := hpub.lined.mem he
  obtain ⟨-, hhigh⟩ := hs.columns.epochs e.1 e.2 (ExtTreeMap.mem_toList_iff_getElem?_eq_some.mp he)
  obtain ⟨-, hscanned, hlt⟩ := hs.steady.frontier
  have hend := hpub.lined.settled he
  have hkey : toU64 e.1 = j := by
    rw [hidx]
    unfold toU64
    omega
  unfold Site.epoch
  simp only
  rw [hkey]
  exact hkept.buildEpoch _ (by omega) (by omega)

theorem SitePath.carried (hchain : PlainStr cfg.chainId)
    (hpath : SitePath L P Z pedersen cfg B Database.settledUpto (OnSome L) x y)
    (hs : Sound L x.database) (hd : OnSome L x.database) (hpub : Published cfg Z x)
    (hx : Carried P J Z cfg x) : Carried P J Z cfg y := by
  induction hpath with
  | refl => exact hx
  | tail hpath hstep ih =>
      have hsound := SitePath.sound hpath hs
      have hrows := SitePath.known ofBlocks_onSome hpath hd
      have hsite := (SitePath.published hpath hs hpub).1
      cases hstep with
      | cut hcut => exact hcut.carried hchain hsound hrows hsite ih
      | ingest _ hkept => exact hkept.carried hsound hsite ih
      | repair _ hkept => exact hkept.carried hsound hsite ih

/-! ## What a consumer applies -/

/-- A published row as the manifest lists it. -/
def listedEntry (e : Int × EpochRec) : ManifestEpoch := (epochRowOf e.1 e.2).entry.toManifestEpoch

/-- A published epoch as a consumer applies it. -/
def Site.applied (Z : Zstd) (cfg : ChainConfig) (x : Site) (e : Int × EpochRec) : AppliedEpoch :=
  ⟨listedEntry e, (payloadOf Z x.dir.epochs (toU64 e.1)).getD ByteArray.empty, x.epoch cfg e⟩

/-- The files of listed epochs are within what a consumer unpacks. -/
def Small (Z : Zstd) (dir : FeedDir) : Prop :=
  ∀ entry ∈ dir.listed, ∀ payload, payloadOf Z dir.epochs entry.e = some payload →
    payload.size ≤ Consumer.MAX_DECOMPRESSED

variable {genesis : Genesis} {e : Int × EpochRec}

/-- A carried row is fetched and verified. -/
theorem CarriedRow.fetched (h : CarriedRow P J Z cfg x e) (hgenesis : genesis.chainId = cfg.chainId)
    (hsmall : ∀ payload, payloadOf Z x.dir.epochs (toU64 e.1) = some payload →
      payload.size ≤ Consumer.MAX_DECOMPRESSED) :
    fetchEpoch P J (x.dir.transport Z) genesis cfg.pool (listedEntry e) e.2.prevHash =
        .ok ((x.applied Z cfg e).payload, x.epoch cfg e) ∧
      payloadSha256 (x.applied Z cfg e).payload = e.2.contentHash := by
  obtain ⟨payload, hfile, hverified⟩ := h
  have hpayload : payloadOf Z x.dir.epochs (toU64 e.1) = some payload := by
    rw [payloadOf, hfile, Option.bind_some, Z.expand_compress]
  have happlied : (x.applied Z cfg e).payload = payload := by
    unfold Site.applied
    simp only
    rw [hpayload]
    rfl
  have hunpacked : (x.dir.transport Z).decompress (Z.compress payload) Consumer.MAX_DECOMPRESSED
      ("epoch " ++ (listedEntry e).e.repr) = .ok payload := by
    unfold FeedDir.transport
    simp only
    rw [Z.expand_compress]
    simp only
    rw [if_pos (hsmall payload hpayload)]
  have hbound : verifyEpochBinding (x.epoch cfg e) genesis.chainId cfg.pool = .ok () :=
    verifyEpochBinding_eq_ok.mpr ⟨hgenesis.symm, rfl⟩
  have hverify : verifyEpochAgainstManifest P J payload (listedEntry e) e.2.prevHash =
      .ok (x.epoch cfg e) := (verifyEpochAgainstManifest_eq_ok P J).mpr hverified
  rw [happlied]
  refine ⟨?_, hexEncode_inj hverified.hash⟩
  exact bind_eq_ok.mpr ⟨Z.compress payload, opened_some hfile _, bind_eq_ok.mpr ⟨payload, hunpacked,
    bind_eq_ok.mpr ⟨x.epoch cfg e, Consumer.liftFeed_eq_ok.mpr hverify,
      bind_eq_ok.mpr ⟨(), Consumer.liftFeed_eq_ok.mpr hbound, rfl⟩⟩⟩⟩

/-- The epochs of a lined-up log are all applied, in order. -/
theorem verifyEpochs_carried {l : List (Int × EpochRec)} {i : Nat} {prev : Option Key}
    {last : Option Nat} (hgenesis : genesis.chainId = cfg.chainId) (hlined : Lined cfg i prev l)
    (hlast : ∀ n ∈ last, n < i)
    (hl : ∀ e ∈ l, e.1 < 2 ^ 63 ∧ CarriedRow P J Z cfg x e ∧
      ∀ payload, payloadOf Z x.dir.epochs (toU64 e.1) = some payload →
        payload.size ≤ Consumer.MAX_DECOMPRESSED) :
    verifyEpochs P J (x.dir.transport Z) genesis cfg.pool (l.map listedEntry) last prev =
      .ok (l.map (x.applied Z cfg)) := by
  induction l generalizing i prev last with
  | nil => rfl
  | cons e rest ih =>
      obtain ⟨⟨hidx, -, -, -, hprev⟩, hrest⟩ := hlined
      obtain ⟨⟨hhigh, hcarried, hsmall⟩, htail⟩ := List.forall_mem_cons.mp hl
      obtain ⟨hfetch, hhash⟩ := hcarried.fetched hgenesis hsmall
      have hkey : (listedEntry e).e = i := by
        change toU64 e.1 = i
        unfold toU64
        omega
      have hskip : ¬ skips last (listedEntry e) = true := by
        cases last with
        | none => exact Bool.false_ne_true
        | some n =>
            have hlt := hlast n rfl
            unfold skips
            rw [decide_eq_true_eq, hkey]
            omega
      have habove : ∀ n ∈ some (listedEntry e).e, n < i + 1 := by
        intro n hn
        obtain rfl := Option.some.inj hn
        omega
      have hmore := ih hrest habove htail
      rw [hprev] at hfetch
      rw [← hhash] at hmore
      rw [List.map_cons, List.map_cons, verifyEpochs, if_neg hskip]
      exact bind_eq_ok.mpr ⟨_, hfetch, bind_eq_ok.mpr ⟨_, hmore, rfl⟩⟩

/-! ## What a directory offers -/

/-- Floor of a consumer that has applied every listed epoch. -/
def FeedDir.floor (dir : FeedDir) : Nat := (dir.listed.getLast?.map fun entry => entry.last).getD 0

/-- A head file whose blocks lie between the listed epochs and the head that it names. A
head that was written before the last cut, or after a cut that the manifest does not list
yet, is no such head. -/
def HeadAbove (P : FeltParser) (J : JsonParser) (dir : FeedDir) : Prop :=
  ∃ payload head, dir.head = some payload ∧ parseHead P J payload = .ok head ∧
    head.header.tailFrom ≤ dir.floor + 1 ∧ head.header.head < 2 ^ 63 ∧
    ∀ b ∈ head.blocks, dir.floor < b.number ∧ b.number ≤ head.header.head

/-- Rows that genesis and manifest offer for replay. -/
structure Offers (P : FeltParser) (J : JsonParser) (Z : Zstd) (cfg : ChainConfig) (x : Site)
    (genesis : Genesis) (manifest : ManifestFile) (l : List (Int × EpochRec)) : Prop where
  laid : x.dir.genesis = some genesis
  chainId : genesis.chainId = cfg.chainId
  pool : genesis.pool = feltHex cfg.pool
  written : x.dir.manifest = some manifest
  agrees : manifest.chainId = cfg.chainId
  listed : x.dir.listed = l.map fun e => (epochRowOf e.1 e.2).entry
  lined : Lined cfg cfg.firstEpoch none l
  carried : ∀ e ∈ l, e.1 < 2 ^ 63 ∧ CarriedRow P J Z cfg x e ∧
    ∀ payload, payloadOf Z x.dir.epochs (toU64 e.1) = some payload →
      payload.size ≤ Consumer.MAX_DECOMPRESSED

theorem Carried.offers {manifest : ManifestFile} (hx : Carried P J Z cfg x)
    (hs : Sound L x.database) (hpub : Published cfg Z x) (hsmall : Small Z x.dir)
    (hgenesis : x.dir.genesis = some genesis) (hmanifest : x.dir.manifest = some manifest) :
    ∃ l, Offers P J Z cfg x genesis manifest l := by
  have htake := List.prefix_iff_eq_take.mp hpub.listed
  have hsplit := List.take_append_drop x.dir.listed.length x.database.epochs.toList
  have hlisted : x.dir.listed = (x.database.epochs.toList.take x.dir.listed.length).map
      fun e => (epochRowOf e.1 e.2).entry := by
    refine htake.trans ?_
    unfold Database.epochRows
    rw [List.map_map, List.map_take]
    rfl
  obtain ⟨hchain, hpool⟩ := hx.genesis genesis hgenesis
  refine ⟨_, hgenesis, hchain, hpool, hmanifest, hx.manifest manifest hmanifest, hlisted, ?_, ?_⟩
  · have hlined := hpub.lined
    rw [← hsplit] at hlined
    exact (lined_append_iff.mp hlined).1
  · intro e he
    have hmem := List.mem_of_mem_take he
    obtain ⟨-, hhigh⟩ :=
      hs.columns.epochs e.1 e.2 (ExtTreeMap.mem_toList_iff_getElem?_eq_some.mp hmem)
    refine ⟨hhigh, hx.rows e hmem, fun payload hpayload => ?_⟩
    refine hsmall (epochRowOf e.1 e.2).entry ?_ payload hpayload
    rw [hlisted]
    exact List.mem_map_of_mem he

namespace Offers

variable {manifest : ManifestFile} {l : List (Int × EpochRec)}

theorem read_eq (h : Offers P J Z cfg x genesis manifest l) :
    manifest.read.epochs = l.map listedEntry := by
  have hlisted := h.listed
  unfold FeedDir.listed at hlisted
  rw [h.written] at hlisted
  have hepochs : manifest.epochs = l.map fun e => (epochRowOf e.1 e.2).entry := hlisted
  unfold ManifestFile.read
  simp only
  rw [hepochs, List.map_map]
  rfl

/-- A listed epoch has the range of its index. -/
theorem range (h : Offers P J Z cfg x genesis manifest l) (he : e ∈ l) :
    ∃ j : Nat, toU64 e.1 = j ∧ (listedEntry e).first = (cfg.epochRange j).1 ∧
      (listedEntry e).last = (cfg.epochRange j).2 ∧ (cfg.epochRange j).2 < 2 ^ 63 ∧ e.1 = j := by
  obtain ⟨j, -, -, hidx, hfrom, hto, hfit⟩ := h.lined.mem he
  obtain ⟨hhigh, -, -⟩ := h.carried e he
  have hle := epochRange_le cfg j
  refine ⟨j, ?_, ?_, ?_, hfit, hidx⟩
  · unfold toU64
    omega
  · change toU64 e.2.fromBlock = _
    rw [hfrom]
    unfold toU64
    omega
  · change toU64 e.2.toBlock = _
    rw [hto]
    unfold toU64
    omega

theorem verified (h : Offers P J Z cfg x genesis manifest l) :
    verifyEpochs P J (x.dir.transport Z) genesis cfg.pool manifest.read.epochs none none =
      .ok (l.map (x.applied Z cfg)) := by
  rw [h.read_eq]
  exact verifyEpochs_carried h.chainId h.lined (fun n hn => by cases hn) h.carried

/-- The end of the last listed epoch. -/
theorem floor_eq (h : Offers P J Z cfg x genesis manifest l) :
    x.dir.floor = ((manifest.read.epochs.getLast?.map (·.last)).getD 0) := by
  unfold FeedDir.floor
  rw [h.read_eq, h.listed, List.getLast?_map, List.getLast?_map, Option.map_map, Option.map_map]
  rfl

theorem floor_lt (h : Offers P J Z cfg x genesis manifest l) : x.dir.floor < 2 ^ 63 := by
  rw [h.floor_eq, h.read_eq, List.getLast?_map]
  cases hlast : l.getLast? with
  | none => exact (by norm_num : 0 < 2 ^ 63)
  | some e =>
      obtain ⟨j, -, -, hto, hfit, -⟩ := h.range (List.mem_of_getLast? hlast)
      change (listedEntry e).last < 2 ^ 63
      rw [hto]
      exact hfit

end Offers

/-! ## A fresh consumer -/

/-- A call that replays the epochs. -/
def Site.replay (Z : Zstd) (x : Site) : Consumer.Call := ⟨x.dir.transport Z, .epochs⟩

/-- Rows of a lined-up log ascend. -/
theorem Lined.ascending {i : Nat} {prev : Option Key} {l : List (Int × EpochRec)}
    (h : Lined cfg i prev l) : l.Pairwise fun a b => a.1 < b.1 := by
  induction l generalizing i prev with
  | nil => exact List.Pairwise.nil
  | cons e rest ih =>
      obtain ⟨⟨hidx, -⟩, hrest⟩ := h
      refine List.Pairwise.cons (fun b hb => ?_) (ih hrest)
      obtain ⟨j, hlow, -, hj, -⟩ := hrest.mem hb
      omega

/-- Ranges of later epochs lie above those of earlier ones. -/
theorem epochRange_apart (hsize : 0 < cfg.epochSize) {j k : Nat} (h : j < k) :
    (cfg.epochRange j).2 < (cfg.epochRange k).1 := by
  have hle : (j + 1) * cfg.epochSize ≤ k * cfg.epochSize := Nat.mul_le_mul_right _ h
  have hpos : 0 < (j + 1) * cfg.epochSize := Nat.mul_pos (Nat.succ_pos j) hsize
  change (j + 1) * cfg.epochSize - 1 < k * cfg.epochSize
  omega

namespace Offers

variable {manifest : ManifestFile} {l : List (Int × EpochRec)} {S : Type} [SharedStore S] {s : S}

theorem entries_eq (h : Offers P J Z cfg x genesis manifest l) :
    (l.map (x.applied Z cfg)).map (·.entry) = manifest.read.epochs := by
  rw [h.read_eq, List.map_map]
  rfl

theorem manifest_ok (h : Offers P J Z cfg x genesis manifest l) :
    (x.dir.transport Z).fetchManifest = .ok manifest.read :=
  opened_some (congrArg (Option.map ManifestFile.read) h.written) _

theorem headReady (h : Offers P J Z cfg x genesis manifest l) (hhead : HeadAbove P J x.dir)
    (hs : Consumer.Fresh s) {folded : S}
    (hfolds : Consumer.Folds (l.map (x.applied Z cfg)) (pinned genesis s) folded) :
    Consumer.HeadReady P J (x.dir.transport Z) folded := by
  obtain ⟨payload, head, hfile, hparse, htail, -, -⟩ := hhead
  have hlt := h.floor_lt
  have hfloor : lastEpochTo folded = x.dir.floor := by
    rw [hfolds.lastEpochTo_eq (Consumer.verifyEpochs_ok P J h.verified).2, h.entries_eq, metaU64,
      Consumer.metaGet_pinned _ _ (by decide), hs.metas, Option.bind_none, Option.or_none, h.floor_eq]
  have hetag : metaGet folded "head_etag" = none := by
    rw [Consumer.metaGet_folds hfolds (by decide), Consumer.metaGet_pinned _ _ (by decide), hs.metas]
  refine Or.inr ⟨payload, Live.etagOf payload, head, ?_, hparse, ?_⟩
  · rw [hetag]
    unfold FeedDir.transport
    simp only
    rw [hfile]
    simp only
    rw [if_neg (by simp)]
  · rw [hfloor]
    omega

/-- A fresh store takes every check of the replay. -/
def accepts (h : Offers P J Z cfg x genesis manifest l) (hhead : HeadAbove P J x.dir)
    (hs : Consumer.Fresh s) : Consumer.Accepts P J (x.replay Z) s where
  genesis := genesis
  manifest := manifest.read
  feedPool := cfg.pool
  prevHash := none
  snapshot := none
  epochs := l.map (x.applied Z cfg)
  genesis_ok := opened_some h.laid _
  pool_ok stored hstored := by
    rw [hs.metas] at hstored
    cases hstored
  chain_ok stored hstored := by
    rw [pinned, hs.metas] at hstored
    simp only [LawfulStore.metaGet_metaSet] at hstored
    simpa using hstored.symm
  manifest_ok := h.manifest_ok
  agrees := h.agrees.trans h.chainId.symm
  feedPool_ok := by
    rw [h.pool]
    exact feltFromHex_feltHex P _
  available hmode := by cases hmode
  snapshot_ok := by rw [Consumer.installed, if_neg (by simp [Site.replay])]
  prevHash_ok := by
    rw [Consumer.storedHash, Consumer.withSnapshot, Consumer.metaGet_pinned _ _ (by decide), hs.metas]
  divergence_ok := by
    rw [metaU64, Consumer.withSnapshot, Consumer.metaGet_pinned _ _ (by decide), hs.metas]
    rfl
  epochs_ok := by
    rw [metaU64, Consumer.withSnapshot, Consumer.metaGet_pinned _ _ (by decide), hs.metas]
    exact h.verified
  proper a ha := by
    obtain ⟨e, he, rfl⟩ := List.mem_map.mp ha
    obtain ⟨j, -, hfirst, hlast, -, -⟩ := h.range he
    change (listedEntry e).first ≤ (listedEntry e).last
    rw [hfirst, hlast]
    exact epochRange_le cfg j
  head_ok folded hfolds := h.headReady hhead hs hfolds

theorem ascending (h : Offers P J Z cfg x genesis manifest l) (hsize : 0 < cfg.epochSize) :
    Consumer.Ascending none (l.map listedEntry) := by
  constructor
  · intro entry hentry
    obtain ⟨e, he, rfl⟩ := List.mem_map.mp hentry
    obtain ⟨j, -, hfirst, hlast, -, -⟩ := h.range he
    rw [hfirst, hlast]
    exact epochRange_le cfg j
  · rw [List.pairwise_map]
    refine h.lined.ascending.imp_of_mem fun {a b} ha hb hlt => ?_
    obtain ⟨j, -, -, hlast, -, hj⟩ := h.range ha
    obtain ⟨k, -, hfirst, -, -, hk⟩ := h.range hb
    rw [hlast, hfirst]
    exact epochRange_apart hsize (by omega)
  · intro f hf
    cases hf

theorem keepsFloor (h : Offers P J Z cfg x genesis manifest l) (hhead : HeadAbove P J x.dir)
    (hsize : 0 < cfg.epochSize) (hfits : ∀ n < 2 ^ 63, LawfulStore.Fits S n)
    (hs : Consumer.Fresh s) : Consumer.KeepsFloor P J s (x.replay Z) := by
  intro m hm
  obtain rfl := Except.ok.inj (h.manifest_ok.symm.trans hm)
  have hlt := h.floor_lt
  have hnone : ∀ key f, Consumer.baseOf key f s (x.replay Z).mode manifest.read = none := by
    intro key f
    rw [Consumer.baseOf, if_neg (by simp [Site.replay]), metaU64, hs.metas]
    rfl
  have hoffered : Consumer.offered s (x.replay Z) manifest.read = l.map listedEntry := by
    have hpending := (Consumer.verifyEpochs_ok P J h.verified).1
    unfold Consumer.offered Consumer.baseIndex
    rw [hnone, ← hpending, h.entries_eq, h.read_eq]
  have hfloor : Consumer.nextFloor s (x.replay Z) manifest.read = x.dir.floor := by
    unfold Consumer.nextFloor Consumer.baseFloor
    rw [hnone, hoffered, Option.or_none, ← h.read_eq, h.floor_eq]
  -- the one head that the call can receive
  have hreceived : ∀ head, Consumer.Receives P J s (x.replay Z) head → head.header.head < 2 ^ 63 ∧
      ∀ b ∈ head.blocks, x.dir.floor < b.number ∧ b.number ≤ head.header.head := by
    obtain ⟨payload, head, hfile, hparse, -, hbound, hblocks⟩ := hhead
    rintro head' ⟨payload', etag, hfetch, hparse'⟩
    have hsome : (x.dir.transport Z).fetchHead none = .ok (some (payload, Live.etagOf payload)) := by
      unfold FeedDir.transport
      simp only
      rw [hfile]
      simp only
      rw [if_neg (by simp)]
    rw [hs.metas] at hfetch
    obtain ⟨rfl, -⟩ := Prod.mk.inj (Option.some.inj (Except.ok.inj (hsome.symm.trans hfetch)))
    obtain rfl := Except.ok.inj (hparse.symm.trans hparse')
    exact ⟨hbound, hblocks⟩
  constructor
  · rw [hoffered, Consumer.baseFloor, hnone]
    exact h.ascending hsize
  · intro row hr
    rw [hs.rows] at hr
    exact absurd hr (Consumer.Rows.has_empty _)
  · intro head hr
    rw [hfloor]
    exact (hreceived head hr).2
  · intro f hf
    rw [Consumer.baseFloor, hnone] at hf
    cases hf
  · intro entry hentry
    rw [hoffered] at hentry
    obtain ⟨e, he, rfl⟩ := List.mem_map.mp hentry
    obtain ⟨j, -, hfirst, hlast, hfit, -⟩ := h.range he
    have hle := epochRange_le cfg j
    rw [hfirst, hlast]
    refine ⟨SharedStore.fitsRange_inclusive (hfits _ (by omega)) (hfits _ hfit), fun n hn => ?_⟩
    exact hfits n (by omega)
  · intro head hr
    obtain ⟨hbound, hblocks⟩ := hreceived head hr
    rw [hfloor]
    refine ⟨SharedStore.fitsRange_above (hfits _ hlt) (by omega), fun b hb => ?_⟩
    exact hfits _ (lt_of_le_of_lt (hblocks b hb).2 hbound)

/-- An applied epoch brings the lines of its listed range. -/
theorem applied_rows (h : Offers P J Z cfg x genesis manifest l) (he : e ∈ l) :
    (x.applied Z cfg e).rows = Row.ofBlocks ((x.database.blocksAsLines (listedEntry e).first
      (listedEntry e).last none).map fun b => (b, true)) := by
  obtain ⟨j, hkey, hfirst, hlast, -, -⟩ := h.range he
  rw [hfirst, hlast]
  unfold AppliedEpoch.rows Site.applied Site.epoch buildEpoch
  simp only
  rw [hkey]

/-- **The replay.** It returns `Ok`, and up to the floor the consumer holds the lines of
the listed epochs. -/
theorem replayed (h : Offers P J Z cfg x genesis manifest l) (hhead : HeadAbove P J x.dir)
    (hsize : 0 < cfg.epochSize) (hfits : ∀ n < 2 ^ 63, LawfulStore.Fits S n)
    (hs : Consumer.Fresh s) :
    ∃ out s', applyFeed P J (x.dir.transport Z) .epochs s = .ok out s' ∧
      lastEpochTo s' = x.dir.floor ∧
      ∀ row, (LawfulStore.rows s').Has row ∧ row.number ≤ x.dir.floor ↔
        ∃ entry ∈ x.dir.listed, row ∈ Row.ofBlocks
          ((x.database.blocksAsLines entry.first entry.last none).map fun b => (b, true)) := by
  obtain ⟨out, s', hok⟩ := (h.accepts hhead hs).succeeds
  obtain ⟨T⟩ := Consumer.applyFeed_ok P J (c := x.replay Z) hok
  have hhistory : T.history = ⟨none, l.map (x.applied Z cfg)⟩ :=
    (h.accepts hhead hs).history_eq P J T
  obtain ⟨hinv, -⟩ :=
    T.floorInv (Consumer.FloorInv.of_fresh hs) (h.keepsFloor hhead hsize hfits hs)
  rw [hhistory] at hinv
  have hends : lastEpochTo s' = x.dir.floor := by
    have hlasts : (Consumer.History.empty.append ⟨none, l.map (x.applied Z cfg)⟩).ends =
        (l.map (x.applied Z cfg)).map (·.entry.last) := rfl
    rw [hinv.metas.lastEpochTo_eq, hlasts, h.floor_eq, ← h.entries_eq, ← List.getLast?_map,
      List.map_map, List.map_map, List.map_map]
    rfl
  refine ⟨out, s', hok, hends, fun row => ?_⟩
  rw [← hends]
  refine (hinv.below row).trans ?_
  change row ∈ (l.map (x.applied Z cfg)).flatMap AppliedEpoch.rows ↔ _
  rw [List.mem_flatMap, h.listed]
  constructor
  · rintro ⟨a, ha, hrow⟩
    obtain ⟨e, he, rfl⟩ := List.mem_map.mp ha
    rw [h.applied_rows he] at hrow
    exact ⟨_, List.mem_map_of_mem he, hrow⟩
  · rintro ⟨entry, hentry, hrow⟩
    obtain ⟨e, he, rfl⟩ := List.mem_map.mp hentry
    refine ⟨_, List.mem_map_of_mem he, ?_⟩
    rw [h.applied_rows he]
    exact hrow

end Offers

/-! ## Runs from the first start -/

/-- Each command follows a chain, and repairs keep above the published range. -/
def FollowsAbove (L : Ledger) (P : FeltParser) (Z : Zstd) (pedersen : Felt → Felt → Felt)
    (cfg : ChainConfig) (chunkSize : Nat) : Publisher → RpcClient → Command → Prop :=
  fun s rpc c => Follows L P cfg chunkSize s rpc c ∧
    c.Above P Z pedersen cfg chunkSize Database.settledUpto s rpc

variable {chunkSize : Nat} {s t : Publisher}

/-- **What is published is delivered.** In every run from the first start whose commands
each follow a chain and whose repairs keep above the published range, at every point where
it may stop: if the directory has genesis, manifest, epoch files that a consumer unpacks
and a head right above them, then a fresh consumer that replays the epochs returns `Ok`,
and up to the end of the last listed epoch it holds the lines of the publisher's database,
nothing less and nothing else. -/
theorem published_delivered (hchain : PlainStr cfg.chainId) (hsize : 0 < cfg.epochSize)
    (D : Chain L) (hfresh : s.Fresh)
    (hrun : LoopRun P Z pedersen cfg chunkSize (FollowsAbove L P Z pedersen cfg chunkSize) s t)
    {genesis : Genesis} {manifest : ManifestFile} (hgenesis : t.dir.genesis = some genesis)
    (hmanifest : t.dir.manifest = some manifest) (hsmall : Small Z t.dir)
    (hhead : HeadAbove P J t.dir) {S : Type} [SharedStore S]
    (hfits : ∀ n < 2 ^ 63, LawfulStore.Fits S n) {m : S} (hm : Consumer.Fresh m) :
    ∃ out m', applyFeed P J (t.dir.transport Z) .epochs m = .ok out m' ∧
      lastEpochTo m' = t.dir.floor ∧
      ∀ row, (LawfulStore.rows m').Has row ∧ row.number ≤ t.dir.floor ↔
        ∃ entry ∈ t.dir.listed, row ∈ Row.ofBlocks
          ((t.host.database.blocksAsLines entry.first entry.last none).map fun b => (b, true)) := by
  have hnew : OnSome L s.host.database := hfresh.onSome D
  have hpath : SitePath L P Z pedersen cfg (fun _ => True) Database.settledUpto (OnSome L)
      s.site t.site := by
    refine loopRun_path ofBlocks_onSome (fun d rpc c hok hsound hd => ?_) hfresh.sound hnew hrun
    obtain ⟨⟨hnames, C, htruthful, hstarts⟩, habove⟩ := hok
    exact permitted_chain hnames (fun _ _ => trivial) htruthful hstarts habove hsound hd
  have hstart : Published cfg Z s.site := hfresh.published
  -- nothing is recorded or listed at the first start
  have hcarried : Carried P J Z cfg s.site := by
    have hdir : s.site.dir = ⟨none, ∅, ∅, none, none⟩ := hfresh.dir
    refine ⟨fun e he => ?_, fun genesis hg => ?_, fun manifest hm => ?_⟩
    · rw [hfresh.rows] at he
      cases he
    · rw [hdir] at hg
      cases hg
    · rw [hdir] at hm
      cases hm
  have hend : Carried P J Z cfg t.site :=
    SitePath.carried hchain hpath hfresh.sound hnew hstart hcarried
  obtain ⟨l, hoffers⟩ := hend.offers (SitePath.sound hpath hfresh.sound)
    (SitePath.published hpath hfresh.sound hstart).1 hsmall hgenesis hmanifest
  exact hoffers.replayed hhead hsize hfits hm

end

/-! ## A directory with one epoch -/

/-- The head file that the repair leaves: block 5, with its slot and its event. -/
def repairedHead : Head :=
  ⟨⟨4, 6, 6, 6⟩, [⟨5, 5, 4, 0, [(1, 5)], [⟨0, 0, 1, [], []⟩], none, some .l2⟩], ⟨1, 1, 1, 0⟩⟩

theorem repairedHead_wf : HeadWf repairedHead where
  header := ⟨by decide, by decide, by decide⟩
  blocks := by
    refine ⟨fun b hb => ?_, List.isChain_singleton _, (checkSorted_ok_iff _).mp (by rfl)⟩
    rw [List.mem_singleton.mp hb]
    refine ⟨by decide, by decide, fun e he => ?_⟩
    rw [List.mem_singleton.mp he]
    exact ⟨by decide, by decide⟩
  tail b hb := by
    rw [List.mem_singleton.mp hb]
    exact ⟨rfl, by decide⟩
  footer := ⟨by decide, by decide, by decide⟩

/-- The first epoch is listed, its file is small, and the head begins right above it. -/
theorem repaired_offers : (repaired (backfilled unpublished)).dir.genesis.isSome = true ∧
    (repaired (backfilled unpublished)).dir.manifest.isSome = true ∧
    (repaired (backfilled unpublished)).dir.listed.map (fun entry => (entry.e, entry.last)) =
      [(0, 3)] ∧
    ((payloadOf plainZstd (repaired (backfilled unpublished)).dir.epochs 0).map fun payload =>
      decide (payload.size ≤ Consumer.MAX_DECOMPRESSED)) = some true ∧
    (repaired (backfilled unpublished)).dir.head.map (fun payload => payload.data.toList) =
      some (headBytes repairedHead).data.toList := by
  decide +kernel

theorem repaired_floor : (repaired (backfilled unpublished)).dir.floor = 3 := by
  obtain ⟨-, -, hlisted, -, -⟩ := repaired_offers
  have hlasts := congrArg (fun l => l.getLast?.map Prod.snd) hlisted
  simp only [List.getLast?_map, Option.map_map] at hlasts
  unfold FeedDir.floor
  change (Option.map (Prod.snd ∘ fun entry : EpochEntry => (entry.e, entry.last)) _).getD 0 = 3
  rw [hlasts]
  rfl

theorem repaired_headAbove :
    HeadAbove hexParser Json.parser (repaired (backfilled unpublished)).dir := by
  obtain ⟨payload, hfile, hbytes⟩ := Option.map_eq_some_iff.mp repaired_offers.2.2.2.2
  obtain rfl : payload = headBytes repairedHead := ByteArray.ext (Array.toList_inj.mp hbytes)
  refine ⟨_, repairedHead, hfile, parseHead_headBytes hexParser Json.parser repairedHead_wf,
    ?_, ?_, ?_⟩
  · rw [repaired_floor]
    rfl
  · decide
  · intro b hb
    rw [List.mem_singleton.mp hb, repaired_floor]
    decide

theorem repaired_small : Small plainZstd (repaired (backfilled unpublished)).dir := by
  obtain ⟨-, -, hlisted, hsize, -⟩ := repaired_offers
  intro entry hentry payload hpayload
  have hmem := List.mem_map_of_mem (f := fun entry : EpochEntry => (entry.e, entry.last)) hentry
  rw [hlisted] at hmem
  have hzero : entry.e = 0 := congrArg Prod.fst (List.mem_singleton.mp hmem)
  rw [hzero] at hpayload
  rw [hpayload] at hsize
  exact of_decide_eq_true (Option.some.inj hsize)

/-- What the first backfill stored is on the chain that has grown. -/
theorem backfilled_holds :
    grownEpoch.Holds ((backfilled unpublished).granted 100).host.database := by
  have hall : (((backfilled unpublished).granted 100).host.database.blocks.toList.all fun e =>
      decide (0 ≤ e.1 ∧ e.1 ≤ 6 ∧ e.2.hash = grownEpoch.hash e.1.toNat)) = true := by
    decide +kernel
  intro k r hr
  have hmem := ExtTreeMap.mem_toList_iff_getElem?_eq_some.mpr hr
  obtain ⟨hlow, hhigh, hhash⟩ := of_decide_eq_true (List.all_eq_true.mp hall _ hmem)
  simp only at hlow hhigh hhash
  refine ⟨k.toNat, ?_, (Int.toNat_of_nonneg hlow).symm, hhash⟩
  show k.toNat ≤ 6
  omega

theorem repaired_follows : LoopRun hexParser plainZstd sumHash poolAtOne 1024
    (FollowsAbove Chain.digits hexParser plainZstd sumHash poolAtOne 1024) unpublished
      (repaired (backfilled unpublished)) := by
  refine repaired_run (backfilled_run LoopRun.refl ⟨⟨pastEpoch_names, pastEpoch, ?_, Or.inl ?_⟩,
    unserved_above⟩) ⟨⟨grownEpoch_names, grownEpoch, ?_, Or.inl backfilled_holds⟩, repaired_above⟩
  · exact Chain.settled_truthful _ _ _
  · intro k r hr
    simp [unpublished, Publisher.granted, freshHost, Database.new] at hr
  · exact Chain.attesting_truthful _ _ _ _

theorem published_delivered_repaired :
    ∃ (out : Consumer.ApplyOutcome) (m : Consumer.MemStore sumHash),
      applyFeed hexParser Json.parser ((repaired (backfilled unpublished)).dir.transport plainZstd)
        .epochs (Consumer.MemStore.new sumHash) = .ok out m ∧
      lastEpochTo m = (repaired (backfilled unpublished)).dir.floor ∧
      ∀ row, (LawfulStore.rows m).Has row ∧
          row.number ≤ (repaired (backfilled unpublished)).dir.floor ↔
        ∃ entry ∈ (repaired (backfilled unpublished)).dir.listed, row ∈ Row.ofBlocks
          (((repaired (backfilled unpublished)).host.database.blocksAsLines entry.first entry.last
            none).map fun b => (b, true)) := by
  obtain ⟨hgenesis, hmanifest, -, -, -⟩ := repaired_offers
  obtain ⟨genesis, hgenesis⟩ := Option.isSome_iff_exists.mp hgenesis
  obtain ⟨manifest, hmanifest⟩ := Option.isSome_iff_exists.mp hmanifest
  refine published_delivered (plainStr_literal (by decide)) (by decide) pastEpoch unpublished_fresh
    repaired_follows hgenesis hmanifest repaired_small repaired_headAbove (fun n hn => ?_)
    (Consumer.MemStore.fresh_new sumHash)
  change n < 2 ^ 64
  omega

end Strk20.Indexer
