import Strk20.Indexer.Published

/-!
# What a run publishes can be read (`cutter.rs`, `codec.rs`)

The parser wants blocks in order, adjacent ones linked by parent hash, and nothing
outside the range of the file. Rows of one chain under the heights of their hashes are
all that, so files cut from them parse back into what was encoded. In runs whose cycles
are safe, each on a chain of its own, this is the case at every point.
-/

namespace Strk20.Indexer

open Feed Feed.Codec Tables Json
open Consumer (toI64 toU64 toU64_toI64)
open Std (ExtTreeMap)
open Relation (ReflTransGen)

/-! ## Linked rows -/

section

variable {L : Ledger} {d : Database}

/-- Rows of one chain, adjacent: the upper one names the lower one as its parent. -/
theorem OnSome.parent (hd : OnSome L d) (hnumbered : d.NumberedBy L) {k : Int} {a b : BlockRec}
    (ha : d.blocks[k]? = some a) (hb : d.blocks[k + 1]? = some b) : b.parentHash = a.hash := by
  obtain ⟨D, hD⟩ := hd
  obtain ⟨n, hn, hkn, hahash⟩ := hD k a ha
  obtain ⟨m, hm, hkm, hbhash⟩ := hD (k + 1) b hb
  have hnext : m = n + 1 := by omega
  subst hnext
  rw [(hnumbered (k + 1) b hb).parent (by omega), hbhash, hahash]
  exact D.parent_hash n (by omega)

theorem blocksAsLines_linked (hd : OnSome L d) (hnumbered : d.NumberedBy L) (first last : Nat)
    (upto : Option Nat) : (d.blocksAsLines first last upto).IsChain Linked := by
  unfold Database.blocksAsLines Database.blocksInRange
  rw [List.map_map]
  refine List.Pairwise.isChain (List.pairwise_map.mpr ?_)
  refine ((ExtTreeMap.ordered_keys_toList (t := d.blocks)).filter _).imp_of_mem ?_
  rintro ⟨k, a⟩ ⟨l, b⟩ ha hb hlt
  have hlt : k < l := compare_lt_iff_lt.mp hlt
  have hrow : ∀ {e : Int × BlockRec},
      e ∈ d.blocks.toList.filter (fun e => decide (toI64 first ≤ e.1 ∧ e.1 ≤ toI64 last)) →
        d.blocks[e.1]? = some e.2 := fun he =>
    ExtTreeMap.mem_toList_iff_getElem?_eq_some.mp (List.mem_filter.mp he).1
  have hk := hnumbered k a (hrow ha)
  have hl := hnumbered l b (hrow hb)
  have hkey : toU64 k = k.toNat ∧ toU64 l = l.toNat := by
    have := hk.height
    have := hk.height_lt
    have := hl.height
    have := hl.height_lt
    unfold toU64
    omega
  have hheights := hk.height
  show toU64 k < toU64 l ∧ (toU64 l = toU64 k + 1 → b.parentHash = a.hash)
  rw [hkey.1, hkey.2]
  refine ⟨by omega, fun hnext => ?_⟩
  obtain rfl : l = k + 1 := by omega
  exact hd.parent hnumbered (hrow ha) (hrow hb)

end

/-! ## Epochs and manifest -/

section

variable {L : Ledger} {P : FeltParser} {J : JsonParser} {Z : Zstd} {pedersen : Felt → Felt → Felt}
variable {cfg : ChainConfig} {B : Anchor → Prop} {low : Database → Int} {x y : Site}

/-- A cut epoch verifies on top of what it is chained to. -/
theorem verified_cut (P : FeltParser) (J : JsonParser) (Z : Zstd) (anchor : Option Anchor) (cutAt : Nat)
    (hchain : PlainStr cfg.chainId) {d : Database} (hd : OnSome L d)
    (hnumbered : d.NumberedBy L) {idx : Nat} (hidx : idx < 2 ^ 63)
    (hfit : (cfg.epochRange idx).2 < 2 ^ 63) {prev : Option Key} {payload : ByteArray}
    (hcut : encodeEpoch (buildEpoch cfg d idx prev) = some payload) :
    Verified P J payload
      (epochRowOf idx (cutRec Z cfg idx prev payload anchor cutAt)).entry.toManifestEpoch prev
      (buildEpoch cfg d idx prev) := by
  have hle := epochRange_le cfg idx
  have hparse : parseEpoch P J payload = .ok (buildEpoch cfg d idx prev) :=
    (parseEpoch_built P J hchain (by omega) hfit hcut).mpr
      ⟨rfl, blocksAsLines_linked hd hnumbered _ _ none⟩
  have hkey : toU64 (idx : Int) = idx := by
    unfold toU64
    omega
  have hlast : toU64 (toI64 (cfg.epochRange idx).2) = (cfg.epochRange idx).2 :=
    toU64_toI64 (by omega)
  have hfirst : toU64 (toI64 (cfg.epochRange idx).1) = (cfg.epochRange idx).1 :=
    toU64_toI64 (by omega)
  have hentry : (epochRowOf idx (cutRec Z cfg idx prev payload anchor cutAt)).entry.toManifestEpoch =
      ⟨toU64 (idx : Int), toU64 (toI64 (cfg.epochRange idx).1),
        toU64 (toI64 (cfg.epochRange idx).2), hexEncode (payloadSha256 payload)⟩ := by
    simp only [epochRowOf, EpochRow.entry, cutRec]
  rw [hentry, hkey, hfirst, hlast]
  exact ⟨rfl, hparse, rfl, rfl, rfl, rfl⟩

theorem hashAfter_rows (prev : Option Key) (l : List (Int × EpochRec)) :
    hashAfter prev (l.map fun e => epochRowOf e.1 e.2) = linkHash prev l := by
  induction l generalizing prev with
  | nil => rfl
  | cons e rest ih => exact ih _

theorem RowsServed.files_congr {files files' : ExtTreeMap Nat ByteArray} {d : Database}
    (h : ∀ e ∈ d.epochs.toList, files'[toU64 e.1]? = files[toU64 e.1]?)
    (hserved : RowsServed P J Z files none d.epochRows) :
    RowsServed P J Z files' none d.epochRows := by
  refine (RowsServed.congr fun row hrow => ?_).mpr hserved
  obtain ⟨e, he, rfl⟩ := List.mem_map.mp hrow
  exact h e he

/-- A write of the cutter keeps the rows verifiable. -/
theorem CutStep.served (hchain : PlainStr cfg.chainId) (hstep : CutStep P Z pedersen cfg B x y)
    (hs : Sound L x.database) (hd : OnSome L x.database) (hpub : Published cfg Z x)
    (hx : RowsServed P J Z x.dir.epochs none x.database.epochRows) :
    RowsServed P J Z y.dir.epochs none y.database.epochRows := by
  cases hstep with
  | epochFile hcut =>
      refine RowsServed.files_congr (fun e he => ?_) hx
      rw [getElem?_insert_eq, if_neg (hpub.fresh hs.columns he)]
  | @epochRow payload anchor cutAt hlt hcut hfile hends hscanned hanchor =>
      obtain ⟨-, -, hfrontier⟩ := hs.steady.frontier
      have hhash := (hpub.lined.next hs.columns).2
      have hverified := verified_cut P J Z anchor cutAt hchain hd hs.steady.numbered hlt (by omega) hcut
      have hpayload : payloadOf Z x.dir.epochs (nextEpoch cfg x.database) = some payload := by
        rw [payloadOf, hfile, Option.bind_some, Z.expand_compress]
      have hkey : toU64 (nextEpoch cfg x.database : Int) = nextEpoch cfg x.database := by
        unfold toU64
        omega
      unfold Database.epochRows at hx ⊢
      rw [toList_insertEpoch hs.columns hlt, List.map_append, RowsServed.append_iff, hashAfter_rows,
        ← hhash]
      refine ⟨hx, ⟨payload, _, ?_, hverified⟩, trivial⟩
      show payloadOf Z x.dir.epochs (toU64 (nextEpoch cfg x.database : Int)) = some payload
      rw [hkey]
      exact hpayload
  | _ => exact hx

theorem SitePath.served (hchain : PlainStr cfg.chainId)
    (hpath : SitePath L P Z pedersen cfg B low (OnSome L) x y) (hs : Sound L x.database)
    (hd : OnSome L x.database) (hpub : Published cfg Z x)
    (hx : RowsServed P J Z x.dir.epochs none x.database.epochRows) :
    RowsServed P J Z y.dir.epochs none y.database.epochRows := by
  induction hpath with
  | refl => exact hx
  | tail hpath hstep ih =>
      have hsound := SitePath.sound hpath hs
      have hrows := SitePath.known ofBlocks_onSome hpath hd
      have hsite := (SitePath.published hpath hs hpub).1
      cases hstep with
      | cut hcut => exact hcut.served hchain hsound hrows hsite ih
      | ingest _ hkept =>
          show RowsServed P J Z _ none _
          rw [epochRows_congr hkept.epochs]
          exact ih
      | repair _ hkept =>
          show RowsServed P J Z _ none _
          rw [epochRows_congr hkept.epochs]
          exact ih

/-- The manifest lists rows that verify. -/
theorem Published.served (hpub : Published cfg Z x)
    (hx : RowsServed P J Z x.dir.epochs none x.database.epochRows) {manifest : ManifestFile}
    (hmanifest : x.dir.manifest = some manifest) : Served P J Z x.dir := by
  have hlisted := hpub.listed
  unfold FeedDir.listed at hlisted
  rw [hmanifest] at hlisted
  have hrows : manifest.epochs = (x.database.epochRows.take manifest.epochs.length).map
      EpochRow.entry := by
    rw [List.map_take]
    exact List.prefix_iff_eq_take.mp hlisted
  refine (served_iff hmanifest hrows).mpr ?_
  rw [← List.take_append_drop manifest.epochs.length x.database.epochRows] at hx
  exact (RowsServed.append_iff.mp hx).1

/-! ## The head -/

theorem parseU64_lt {s : String} {n : Nat} (h : Text.parseU64 s = some n) : n < 2 ^ 64 := by
  unfold Text.parseU64 Text.parseUnsigned at h
  exact of_decide_eq_true (Option.filter_eq_some_iff.mp h).2

theorem metaU64_lt (d : Database) (key : String) : (d.metaU64 key).getD 0 < 2 ^ 64 := by
  unfold Database.metaU64
  cases hvalue : (d.metaGet key).bind Text.parseU64 with
  | none => exact (by norm_num : 0 < 2 ^ 64)
  | some n =>
      obtain ⟨s, -, hs⟩ := Option.bind_eq_some_iff.mp hvalue
      exact parseU64_lt hs

/-- The tail starts right after the last epoch. -/
theorem Sound.tailFrom_lt {d : Database} (hs : Sound L d) (hgenesis : cfg.genesisBlock < 2 ^ 63) :
    tailFrom cfg d < 2 ^ 63 := by
  obtain ⟨-, hscanned, hlt⟩ := hs.steady.frontier
  unfold Database.settledUpto at hscanned
  unfold tailFrom
  cases hlast : d.lastEpoch with
  | none =>
      show cfg.genesisBlock / cfg.epochSize * cfg.epochSize < 2 ^ 63
      exact lt_of_le_of_lt (Nat.div_mul_le_self _ _) hgenesis
  | some e =>
      rw [hlast] at hscanned
      simp only at hscanned ⊢
      omega

/-- A head built from rows of one chain parses back. -/
theorem parseHead_built (hgenesis : cfg.genesisBlock < 2 ^ 63) {d : Database} (hs : Sound L d)
    (hd : OnSome L d) {head : Head} (hhead : buildHead cfg d P = .ok head) {payload : ByteArray}
    (hencode : encodeHead head = some payload) : parseHead P J payload = .ok head := by
  have htail := Sound.tailFrom_lt hs hgenesis
  unfold encodeHead at hencode
  split at hencode
  · rename_i hassert
    obtain rfl := (Option.some.inj hencode).symm
    unfold buildHead at hhead
    obtain ⟨hash, -, hhead⟩ := Result.bind_eq_ok.mp hhead
    obtain rfl := (Except.ok.inj hhead).symm
    refine parseHead_headBytes P J ⟨⟨lt_trans htail (by norm_num), metaU64_lt d _, metaU64_lt d _⟩,
      ⟨?_, ?_, ?_⟩, ?_, ⟨rfl, rfl, rfl⟩⟩
    · intro b hb
      obtain ⟨r, hr, rfl⟩ := List.mem_map.mp hb
      obtain ⟨e, -, rfl⟩ := List.mem_map.mp hr
      refine ⟨toU64_lt _, toU64_lt _, ?_⟩
      intro line hline
      obtain ⟨ev, hev, rfl⟩ := List.mem_map.mp hline
      obtain ⟨z, -, rfl⟩ := List.mem_map.mp hev
      exact ⟨toU64_lt _, toU64_lt _⟩
    · exact blocksAsLines_linked hd hs.steady.numbered _ _ _
    · exact sorted_of_assertInvariants hassert
    · intro b hb
      obtain ⟨r, hr, rfl⟩ := List.mem_map.mp hb
      obtain ⟨e, he, rfl⟩ := List.mem_map.mp hr
      have hrange := of_decide_eq_true (List.mem_filter.mp he).2
      have hrow := hs.steady.numbered e.1 e.2
        (ExtTreeMap.mem_toList_iff_getElem?_eq_some.mp (List.mem_filter.mp he).1)
      have hheight := hrow.height
      have hlt := hrow.height_lt
      rw [Consumer.toI64_of_lt htail] at hrange
      refine ⟨rfl, ?_⟩
      show tailFrom cfg d ≤ toU64 e.1
      unfold toU64
      omega
  · cases hencode

/-- A head file that parses into what was encoded. -/
def HeadRead (P : FeltParser) (J : JsonParser) (dir : FeedDir) : Prop :=
  ∀ payload, dir.head = some payload →
    ∃ head, encodeHead head = some payload ∧ parseHead P J payload = .ok head

theorem CutStep.headRead (hgenesis : cfg.genesisBlock < 2 ^ 63)
    (hstep : CutStep P Z pedersen cfg B x y) (hs : Sound L x.database) (hd : OnSome L x.database)
    (hx : HeadRead P J x.dir) : HeadRead P J y.dir := by
  cases hstep with
  | @head payload hhead =>
      intro payload' hpayload'
      obtain rfl := Option.some.inj hpayload'
      obtain ⟨head, hbuilt, hencode⟩ := hhead
      exact ⟨head, hencode, parseHead_built hgenesis hs hd hbuilt hencode⟩
  | _ => exact hx

theorem SitePath.headRead (hgenesis : cfg.genesisBlock < 2 ^ 63)
    (hpath : SitePath L P Z pedersen cfg B low (OnSome L) x y) (hs : Sound L x.database)
    (hd : OnSome L x.database) (hx : HeadRead P J x.dir) : HeadRead P J y.dir := by
  induction hpath with
  | refl => exact hx
  | tail hpath hstep ih =>
      cases hstep with
      | cut hcut =>
          exact hcut.headRead hgenesis (SitePath.sound hpath hs)
            (SitePath.known ofBlocks_onSome hpath hd) ih
      | ingest _ _ => exact ih
      | repair _ _ => exact ih

/-! ## Runs that follow chains -/

/-- Each command on a chain of its own: answers describe it, cycles are safe where they
start, and repairs find its rows. -/
def Follows (L : Ledger) (P : FeltParser) (cfg : ChainConfig) (chunkSize : Nat) :
    Publisher → RpcClient → Command → Prop :=
  fun s rpc c => Names L P rpc ∧
    ∃ C : Chain L, C.Truthful P cfg chunkSize rpc ∧ c.Starts C P s.host.database

variable {chunkSize : Nat} {s t : Publisher}

/-- **What is published can be read.** In every run from the first start whose commands
each follow a chain, at every point where it may stop: once there is a manifest, manifest
and epoch files verify as one hash chain, and a head file parses into the head that was
encoded. -/
theorem published_readable (hchain : PlainStr cfg.chainId) (hgenesis : cfg.genesisBlock < 2 ^ 63)
    (D : Chain L) (hfresh : s.Fresh)
    (hrun : LoopRun P Z pedersen cfg chunkSize (Follows L P cfg chunkSize) s t) :
    (∀ manifest, t.dir.manifest = some manifest → Served P J Z t.dir) ∧ HeadRead P J t.dir := by
  have hnew : OnSome L s.host.database := hfresh.onSome D
  have hpath : SitePath L P Z pedersen cfg (fun _ => True) (fun _ => -1) (OnSome L) s.site t.site := by
    refine loopRun_path ofBlocks_onSome (fun u rpc c hok hsound hd => ?_) hfresh.sound hnew hrun
    obtain ⟨hnames, C, htruthful, hstarts⟩ := hok
    exact permitted_chain hnames (fun _ _ => trivial) htruthful hstarts
      (Command.above_all P Z pedersen cfg chunkSize u rpc c) hsound hd
  have hpub : Published cfg Z s.site := hfresh.published
  have hrows : s.site.database.epochRows = [] := by
    unfold Database.epochRows
    rw [hfresh.rows]
    rfl
  have hserved : RowsServed P J Z s.site.dir.epochs none s.site.database.epochRows := by
    rw [hrows]
    trivial
  constructor
  · intro manifest hmanifest
    exact (SitePath.published hpath hfresh.sound hpub).1.served
      (SitePath.served hchain hpath hfresh.sound hnew hpub hserved) hmanifest
  · refine SitePath.headRead hgenesis hpath hfresh.sound hnew fun payload hpayload => ?_
    have hdir : s.site.dir.head = none := by
      show s.dir.head = none
      rw [hfresh.dir]
    rw [hdir] at hpayload
    cases hpayload

theorem published_readable_backfill :
    (∀ manifest, (backfilled unpublished).dir.manifest = some manifest →
      Served hexParser Json.parser plainZstd (backfilled unpublished).dir) ∧
      HeadRead hexParser Json.parser (backfilled unpublished).dir := by
  refine published_readable (plainStr_literal (by decide)) (by norm_num [poolAtOne]) pastEpoch
    unpublished_fresh (backfilled_run LoopRun.refl ⟨pastEpoch_names, pastEpoch, ?_, Or.inl ?_⟩)
  · exact Chain.settled_truthful _ _ _
  · intro k r hr
    simp [unpublished, Publisher.granted, freshHost, Database.new] at hr

end

end Strk20.Indexer
