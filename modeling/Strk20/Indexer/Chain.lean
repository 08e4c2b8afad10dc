import Strk20.Indexer.Rollback

/-!
# Ingest against a chain (`ingest.rs`)

A block hash stands for one block: it fixes the number and the parent. A chain is
its hashes up to the head, with what its blocks hold of the pool, and an endpoint is
truthful about a chain when every answer it gives describes that chain. The triples
below say what the phases of a cycle do to the database then: the tail and the
segments add rows of the chain and keep those that are there, whatever question
fails and wherever the process stops.
-/

namespace Strk20.Indexer

open Feed Tables
open Effect (Triple)
open Consumer (toI64 toU64 toI64_of_lt)
open Std (ExtTreeMap)

/-- What a block hash commits to, and the block that all chains begin with. -/
structure Ledger where
  number : Felt → Nat
  parent : Felt → Felt
  genesis : Felt

/-- A chain from block 0 to its head, and what its blocks hold of the pool: events,
and whether the state diff touches it. -/
structure Chain (L : Ledger) where
  height : Nat
  hash : Nat → Felt
  events : PoolEvents
  touches : Nat → Bool
  height_lt : height < 2 ^ 63
  hash_zero : hash 0 = L.genesis
  number_hash : ∀ n ≤ height, L.number (hash n) = n
  parent_hash : ∀ n < height, L.parent (hash (n + 1)) = hash n

namespace Chain

variable {L : Ledger}

/-- Chains that share a block share all blocks below it. -/
theorem hash_eq_of_le {C D : Chain L} {n : Nat} (hC : n ≤ C.height) (hD : n ≤ D.height)
    (h : C.hash n = D.hash n) {m : Nat} (hm : m ≤ n) : C.hash m = D.hash m := by
  induction n with
  | zero =>
      rw [Nat.le_zero.mp hm]
      exact h
  | succ n ih =>
      rcases Nat.le_succ_iff.mp hm with hle | rfl
      · refine ih (by omega) (by omega) ?_ hle
        rw [← C.parent_hash n (by omega), ← D.parent_hash n (by omega), h]
      · exact h

/-- A hash is that of one block. -/
theorem number_inj {C D : Chain L} {m n : Nat} (hm : m ≤ C.height) (hn : n ≤ D.height)
    (h : C.hash m = D.hash n) : m = n := by
  rw [← C.number_hash m hm, ← D.number_hash n hn, h]

/-- The row is that of a block of the chain. -/
def Has (C : Chain L) (k : Int) (hash : Felt) : Prop :=
  ∃ n : Nat, n ≤ C.height ∧ k = n ∧ hash = C.hash n

/-- Every stored block is on the chain. -/
def Holds (C : Chain L) (d : Database) : Prop :=
  ∀ (k : Int) (r : BlockRec), d.blocks[k]? = some r → C.Has k r.hash

section

variable (P : FeltParser)

/-- A header of the chain. -/
structure Describes (C : Chain L) (h : BlockHeader) : Prop where
  height : h.blockNumber ≤ C.height
  hash : parseFelt P h.blockHash = .ok (C.hash h.blockNumber)
  parent : 0 < h.blockNumber → parseFelt P h.parentHash = .ok (C.hash (h.blockNumber - 1))

variable (cfg : ChainConfig) (chunkSize : Nat)

/-- Endpoints whose answers describe the chain. Which of its blocks is the latest, and
whether there is an answer at all, is left open. -/
structure Truthful (C : Chain L) (rpc : RpcClient) : Prop where
  header : ∀ t ref h, rpc.getBlock t ref = .ok h → C.Describes P h
  number : ∀ t n h, rpc.getBlock t (.number n) = .ok h → h.blockNumber = n
  update : ∀ t n u, rpc.getStateUpdate t n = .ok u → touchesPool P u (feltHex cfg.pool) = C.touches n
  events : Indexer.Truthful rpc (max chunkSize 1) C.events
  dataHeader : ∀ t ref data, rpc.getBlockData t ref = .ok (some data) → C.Describes P data.header
  dataUpdate : ∀ t ref data, rpc.getBlockData t ref = .ok (some data) →
    touchesPool P data.update (feltHex cfg.pool) = C.touches data.header.blockNumber
  dataEvents : ∀ t ref data, rpc.getBlockData t ref = .ok (some data) →
    (data.events = [] ↔ C.events.emitted data.header.blockNumber = [])

end

end Chain

/-! ## An endpoint that serves a chain -/

section

variable {L : Ledger} (C : Chain L)

namespace Chain

def header (n : Nat) : BlockHeader :=
  ⟨n, feltHex (C.hash n), feltHex (C.hash (n - 1)), 0, none, none,
    (C.events.emitted n).map RpcEvent.transactionHash⟩

/-- Every question about the chain is answered, at every moment. -/
def served (pool : Felt) : RpcClient where
  getBlock _ ref :=
    match ref with
    | .number n => if n ≤ C.height then .ok (C.header n) else .error .blockNotFound
    | .latest => .ok (C.header C.height)
    | .l1Accepted => .ok (C.header 0)
  getStateUpdate _ n := .ok ⟨none, if C.touches n then [⟨feltHex pool, []⟩] else [], [], []⟩
  getEvents _ first last _ :=
    .ok ⟨(List.range' first (last + 1 - first)).flatMap C.events.emitted, none⟩
  getBlockData _ _ := .ok none
  getStorageProof _ _ := .error .proofUnavailable

variable {C}

theorem describes_header (P : FeltParser) {n : Nat} (hn : n ≤ C.height) :
    C.Describes P (C.header n) := by
  have hparse : ∀ f, parseFelt P (feltHex f) = .ok f := by
    intro f
    unfold parseFelt
    rw [P.fromHex_feltHex]
  exact ⟨hn, hparse _, fun _ => hparse _⟩

theorem served_truthful (P : FeltParser) (cfg : ChainConfig) (chunkSize : Nat) :
    C.Truthful P cfg chunkSize (C.served cfg.pool) where
  header := by
    intro t ref h hanswer
    cases ref with
    | number n =>
        simp only [served] at hanswer
        split at hanswer
        · cases hanswer
          exact describes_header P ‹_›
        · cases hanswer
    | latest =>
        cases hanswer
        exact describes_header P (le_refl _)
    | l1Accepted =>
        cases hanswer
        exact describes_header P (Nat.zero_le _)
  number := by
    intro t n h hanswer
    simp only [served] at hanswer
    split at hanswer
    · cases hanswer
      rfl
    · cases hanswer
  update := by
    intro t n u hanswer
    cases hanswer
    unfold touchesPool normalizeHex parseFelt
    cases C.touches n with
    | false => simp
    | true => simp [P.fromHex_feltHex, Except.map]
  events := by
    intro moment first last page hanswer _
    cases hanswer
    rfl
  dataHeader := by
    intro t ref data hanswer
    cases hanswer
  dataUpdate := by
    intro t ref data hanswer
    cases hanswer
  dataEvents := by
    intro t ref data hanswer
    cases hanswer

/-- The latest header answered is the chain's head. -/
structure AtTip (C : Chain L) (rpc : RpcClient) : Prop where
  header : ∀ t h, rpc.getBlock t .latest = .ok h → h.blockNumber = C.height
  data : ∀ t data, rpc.getBlockData t .latest = .ok (some data) → data.header.blockNumber = C.height

theorem served_atTip (pool : Felt) : C.AtTip (C.served pool) where
  header := by
    intro t h hanswer
    cases hanswer
    rfl
  data := by
    intro t data hanswer
    cases hanswer

end Chain

end

/-! ## Short chains -/

namespace Chain

/-- Hashes that spell a block: the tens are the fork, the ones are the number. -/
def digits : Ledger where
  number f := f.val % 10
  parent f := if f.val % 10 ≤ 1 then Fin.ofNat STARK_PRIME 0 else Fin.ofNat STARK_PRIME (f.val - 1)
  genesis := Fin.ofNat STARK_PRIME 0

def digitHash (fork n : Nat) : Felt :=
  if n = 0 then Fin.ofNat STARK_PRIME 0 else Fin.ofNat STARK_PRIME (10 * fork + n)

theorem digitHash_val {fork n : Nat} (hfork : fork < 10) (hn : n < 10) :
    (digitHash fork n).val = if n = 0 then 0 else 10 * fork + n := by
  have hprime : 100 ≤ STARK_PRIME := by decide
  unfold digitHash
  split
  · rfl
  · exact Nat.mod_eq_of_lt (by omega)

/-- One event in each of some blocks. -/
def eventIn (blocks : List Nat) : PoolEvents where
  emitted n := if n ∈ blocks then [⟨[], [], some n, none, "0x1"⟩] else []
  numbered n ev hev := by
    by_cases hn : n ∈ blocks
    · rw [if_pos hn] at hev
      rw [List.mem_singleton.mp hev]
    · rw [if_neg hn] at hev
      cases hev

/-- A fork of a common block 0, with pool events in some blocks. -/
def short (fork height : Nat) (eventful : List Nat) (hfork : fork < 10) (hheight : height < 10) :
    Chain digits where
  height := height
  hash := digitHash fork
  events := eventIn eventful
  touches n := eventful.contains n
  height_lt := by omega
  hash_zero := rfl
  number_hash := by
    intro n hn
    show (digitHash fork n).val % 10 = n
    rw [digitHash_val hfork (by omega)]
    split <;> omega
  parent_hash := by
    intro n hn
    have hval := digitHash_val hfork (show n + 1 < 10 by omega)
    rw [if_neg (Nat.succ_ne_zero n)] at hval
    show (if (digitHash fork (n + 1)).val % 10 ≤ 1 then Fin.ofNat STARK_PRIME 0
      else Fin.ofNat STARK_PRIME ((digitHash fork (n + 1)).val - 1)) = digitHash fork n
    rw [hval]
    unfold digitHash
    by_cases hzero : n = 0
    · rw [if_pos (by omega), if_pos hzero]
    · rw [if_neg (by omega), if_neg hzero, show 10 * fork + (n + 1) - 1 = 10 * fork + n by omega]

theorem zero_lt_ten : 0 < 10 := by decide

theorem one_lt_ten : 1 < 10 := by decide

theorem two_lt_ten : 2 < 10 := by decide

end Chain

/-! ## Steps of a process -/

/-- A predicate on what the process has stored and passed. -/
def On (Q : Database → List Nat → Prop) (h : Host) : Prop := Q h.database h.passed

section

variable {Q R : Database → List Nat → Prop}

theorem ask_triple {α : Type} (answer : Nat → Except Failure α) :
    Triple (On Q) (ask answer) (fun a h => (∃ t, answer t = .ok a) ∧ On Q h) (On Q) := by
  intro h hQ
  unfold ask
  cases hanswer : answer h.moment with
  | ok a => exact ⟨⟨h.moment, hanswer⟩, hQ⟩
  | error e => exact hQ

theorem transact_triple {f : Database → Except Failure Database}
    (hf : ∀ d d' p, Q d p → f d = .ok d' → R d' p) :
    Triple (On Q) (transact f) (fun _ => On R) (On Q) := by
  intro h hQ
  unfold transact
  cases h.budget with
  | zero => exact hQ
  | succ n =>
      cases hd : f h.database with
      | ok d' => exact hf h.database d' h.passed hQ hd
      | error e => exact hQ

theorem write_triple {f : Database → Database} (hf : ∀ d p, Q d p → R (f d) p) :
    Triple (On Q) (write f) (fun _ => On R) (On Q) := by
  refine transact_triple fun d d' p hQ hd => ?_
  cases hd
  exact hf d p hQ

theorem pass_triple {n : Nat} {exc : Host → Prop} (hf : ∀ d p, Q d p → R d (n :: p)) :
    Triple (On Q) (pass n) (fun _ => On R) exc :=
  fun h hQ => hf h.database h.passed hQ

theorem unpass_triple {n : Nat} {exc : Host → Prop}
    (hf : ∀ d p, Q d p → R d (p.filter fun m => m ≤ n)) :
    Triple (On Q) (unpass n) (fun _ => On R) exc :=
  fun h hQ => hf h.database h.passed hQ

theorem ensure_triple {c : Bool} {message : String} :
    Triple (On Q) (ensure c message) (fun _ h => c = true ∧ On Q h) (On Q) := by
  unfold ensure
  refine Triple.ite (fun hc => Triple.pure fun h hQ => ⟨hc, hQ⟩) fun _ => Triple.throw fun _ hQ => hQ

theorem lift_triple {α : Type} {r : Except Failure α} :
    Triple (On Q) (Effect.lift r : Indexing α) (fun a h => r = .ok a ∧ On Q h) (On Q) :=
  Triple.lift (fun _ _ hr hQ => ⟨hr, hQ⟩) fun _ hQ => hQ

/-! Each with what follows it; the process may stop at any of them. -/

variable {α β : Type} {post : β → Host → Prop} {exc : Host → Prop}

theorem ask_then {answer : Nat → Except Failure α} {f : α → Indexing β}
    (hexc : ∀ h, On Q h → exc h)
    (hf : ∀ a, (∃ t, answer t = .ok a) → Triple (On Q) (f a) post exc) :
    Triple (On Q) (ask answer >>= f) post exc :=
  Triple.bind ((ask_triple answer).relax hexc) fun a => Triple.of_and fun hanswer => hf a hanswer

theorem lift_then {r : Except Failure α} {f : α → Indexing β} (hexc : ∀ h, On Q h → exc h)
    (hf : ∀ a, r = .ok a → Triple (On Q) (f a) post exc) :
    Triple (On Q) (Effect.lift r >>= f) post exc :=
  Triple.bind (lift_triple.relax hexc) fun a => Triple.of_and fun hr => hf a hr

theorem ensure_then {c : Bool} {message : String} {f : PUnit → Indexing β}
    (hexc : ∀ h, On Q h → exc h) (hf : c = true → Triple (On Q) (f PUnit.unit) post exc) :
    Triple (On Q) (ensure c message >>= f) post exc :=
  Triple.bind (ensure_triple.relax hexc) fun _ => Triple.of_and fun hc => hf hc

theorem write_then {g : Database → Database} {f : PUnit → Indexing β}
    (hexc : ∀ h, On Q h → exc h) (hg : ∀ d p, Q d p → R (g d) p)
    (hf : Triple (On R) (f PUnit.unit) post exc) :
    Triple (On Q) (write g >>= f) post exc :=
  Triple.bind ((write_triple hg).relax hexc) fun _ => hf

end

/-! ## One block -/

section

variable {L : Ledger} {C : Chain L}

/-- What storing a block of the chain does to a database on the chain. -/
structure Inserted (C : Chain L) (n : Nat) (d d' : Database) : Prop where
  holds : C.Holds d'
  kept : ∀ k : Int, (d.blocks[k]?).isSome → (d'.blocks[k]?).isSome
  has : (d'.blocks[(n : Int)]?).isSome
  cursor : d'.ingestCursor = some (match d.ingestCursor with
    | some f => max f n
    | none => n)
  seenHeads : d'.seenHeads = d.seenHeads
  epochs : d'.epochs = d.epochs
  metas : ∀ key, key ≠ "storage_revision" → d'.metaGet key = d.metaGet key

namespace Database

/-- Events go into their own table. -/
theorem insertEvents_rest {events : List EventRow} {d d' : Database}
    (h : events.foldlM insertEvent d = .ok d') : ∃ t, d' = { d with events := t } := by
  induction events generalizing d with
  | nil =>
      cases h
      exact ⟨_, rfl⟩
  | cons e events ih =>
      rw [List.foldlM_cons] at h
      unfold insertEvent at h
      split at h
      · obtain ⟨t, rfl⟩ := ih h
        exact ⟨t, rfl⟩
      · cases h

theorem insertBlockData_rest {d d' : Database} {block : BlockRow} {diffs : List (Felt × Felt)}
    {events : List EventRow} {cls : Option Felt} {frontier : Nat}
    (h : d.insertBlockData block diffs events cls frontier = .ok d') :
    (∃ status, d'.blocks = (d.clearBlocks fun n r =>
        n == toI64 block.number || r.hash == block.hash).blocks.insert (toI64 block.number)
          ⟨block.hash, block.parentHash, toI64 block.timestamp, status⟩) ∧
      d'.ingestCursor = some (match d.ingestCursor with
        | some f => max f (toI64 frontier)
        | none => toI64 frontier) ∧
      d'.seenHeads = d.seenHeads ∧ d'.epochs = d.epochs ∧
        ∀ key, key ≠ "storage_revision" → d'.metaGet key = d.metaGet key := by
  have hclear := sameBut_deleteBlocks d fun n r => n == toI64 block.number || r.hash == block.hash
  have hdiffs := sameBut_insertDiffs block.number diffs (d.insertBlock block)
  unfold insertBlockData at h
  simp only at h
  split at h
  · cases h
  · rename_i filled hfilled
    obtain ⟨t, rfl⟩ := insertEvents_rest hfilled
    rw [insertClass_eq] at h
    cases h
    refine ⟨⟨if block.l1Accepted then 1 else 0, ?_⟩, ?_, hdiffs.seenHeads.trans hclear.seenHeads,
      hdiffs.epochs.trans hclear.epochs,
      fun key hkey => (hdiffs.metas key hkey).trans (hclear.metas key hkey)⟩
    · refine hdiffs.blocks.trans ?_
      show (d.deleteBlocks fun n r => n == toI64 block.number || r.hash == block.hash).blocks.insert
        _ _ = _
      rw [hclear.blocks]
    · unfold advanceCursor
      simp only [hdiffs.ingestCursor.trans hclear.ingestCursor]
      rfl

end Database

/-- On the chain, a block replaces no row but its own. -/
theorem inserted_of_insertBlockData {d d' : Database} (hd : C.Holds d) {block : BlockRow}
    (hheight : block.number ≤ C.height) (hhash : block.hash = C.hash block.number)
    {diffs : List (Felt × Felt)} {events : List EventRow} {cls : Option Felt}
    (h : d.insertBlockData block diffs events cls block.number = .ok d') :
    Inserted C block.number d d' := by
  have hlt := C.height_lt
  have hkey : toI64 block.number = block.number := toI64_of_lt (by omega)
  obtain ⟨⟨status, hblocks⟩, hcursor, hseen, hepochs, hmetas⟩ := Database.insertBlockData_rest h
  rw [hkey] at hblocks hcursor
  have hother : ∀ (k : Int) (r : BlockRec), k ≠ block.number → d.blocks[k]? = some r →
      d'.blocks[k]? = some r := by
    intro k r hk hr
    obtain ⟨m, hm, rfl, hrhash⟩ := hd k r hr
    have hne : (r.hash == block.hash) = false := by
      rw [beq_eq_false_iff_ne]
      intro heq
      exact hk (by exact_mod_cast Chain.number_inj hm hheight (hrhash.symm.trans (heq.trans hhash)))
    rw [hblocks, getElem?_insert_eq, if_neg hk, Database.getElem?_clearBlocks, hr]
    simp [Option.filter, hne, beq_false_of_ne hk]
  refine ⟨?_, ?_, ?_, hcursor, hseen, hepochs, hmetas⟩
  · intro k r hr
    by_cases hk : k = block.number
    · rw [hblocks, hk, getElem?_insert_eq, if_pos rfl] at hr
      cases hr
      exact ⟨block.number, hheight, hk, hhash⟩
    · rw [hblocks, getElem?_insert_eq, if_neg hk, Database.getElem?_clearBlocks,
        Option.filter_eq_some_iff] at hr
      exact hd k r hr.1
  · intro k hk
    obtain ⟨r, hr⟩ := Option.isSome_iff_exists.mp hk
    by_cases hkn : k = block.number
    · rw [hblocks, hkn, getElem?_insert_eq, if_pos rfl]
      rfl
    · rw [hother k r hkn hr]
      rfl
  · rw [hblocks, getElem?_insert_eq, if_pos rfl]
    rfl

section

variable {P : FeltParser} {rpc : RpcClient} {cfg : ChainConfig} {chunkSize : Nat}
variable {Q R : Database → List Nat → Prop}

/-- Metas that note an unknown class. -/
def NoteStable (Q : Database → List Nat → Prop) : Prop :=
  ∀ d p key value, key = "decode_state" ∨ key = "degraded_since_block" → Q d p →
    Q (d.metaSet key value) p

theorem noteClass_triple (hQ : NoteStable Q) (number : Nat) (replaced : Option Felt) :
    Triple (On Q) (noteClass cfg number replaced) (fun _ => On Q) (On Q) := by
  unfold noteClass
  cases replaced with
  | none => exact Triple.pure fun _ h => h
  | some cls =>
      refine Triple.ite (fun _ => Triple.pure fun _ h => h) fun _ => ?_
      refine write_then (fun _ h => h) (fun d p => hQ d p _ _ (Or.inl rfl)) ?_
      exact write_triple fun d p => hQ d p _ _ (Or.inr rfl)

theorem rawEvents_triple (number : Nat) (events : Option (List RpcEvent)) :
    Triple (On Q) (rawEvents rpc chunkSize number events) (fun _ => On Q) (On Q) := by
  unfold rawEvents
  cases events with
  | some evs => exact Triple.pure fun _ h => h
  | none =>
      refine ask_then (fun _ h => h) fun page _ => ?_
      exact Triple.ite (fun _ => Triple.throw fun _ h => h) fun _ => Triple.pure fun _ h => h

theorem blockRow_ok {number : Nat} {header : BlockHeader} {row : BlockRow}
    (hheader : C.Describes P header) (h : blockRow P number header = .ok row) :
    row.number = number ∧ row.hash = C.hash header.blockNumber := by
  unfold blockRow at h
  rw [hheader.hash] at h
  cases hparent : parseFelt P header.parentHash with
  | error e =>
      rw [hparent] at h
      cases h
  | ok parent =>
      rw [hparent] at h
      cases h
      exact ⟨rfl, rfl⟩

theorem eventRow_block {number index : Nat} {header : BlockHeader} {headerHash : String}
    {ev : RpcEvent} {e : EventRow} (h : eventRow P number header headerHash index ev = .ok e) :
    e.block = number ∧ e.eventIndex = index := by
  unfold eventRow at h
  simp only at h
  split at h
  on_goal 1 =>
    obtain ⟨_, -, h⟩ := Result.bind_eq_ok.mp h
    split at h
    · obtain ⟨_, hthrow, -⟩ := Result.bind_eq_ok.mp h
      cases hthrow
  all_goals
    obtain ⟨keys, -, h⟩ := Result.bind_eq_ok.mp h
    obtain ⟨data, -, h⟩ := Result.bind_eq_ok.mp h
    split at h
    · cases h
    · obtain ⟨txHash, -, h⟩ := Result.bind_eq_ok.mp h
      rw [← Result.pure_eq_ok.mp h]
      exact ⟨rfl, rfl⟩

theorem eventRows_block {number : Nat} {header : BlockHeader} {headerHash : String}
    {events : List RpcEvent} {rows : List EventRow}
    (h : eventRows P number header headerHash events = .ok rows) : ∀ e ∈ rows, e.block = number := by
  intro e he
  obtain ⟨ev, -, hev⟩ := Result.mem_of_mapM_ok h e he
  exact (eventRow_block hev).1

/-- What a block that is stored has gone through: its header has the number, and its row
and events are read off it. Otherwise the process stops before. -/
theorem storeBlock_rule (hQ : NoteStable Q) {number : Nat} {header : BlockHeader}
    (hstore : ∀ (d d' : Database) (p : List Nat) (row : BlockRow) (diffs : List (Felt × Felt))
      (rows : List EventRow) (replaced : Option Felt), header.blockNumber = number →
        blockRow P number header = .ok row → (∀ e ∈ rows, e.block = number) → Q d p →
          d.insertBlockData row diffs rows replaced number = .ok d' → R d' p)
    (update : StateUpdate) (events : Option (List RpcEvent)) :
    Triple (On Q) (storeBlock P rpc cfg chunkSize number header update events) (fun _ => On R)
      (On Q) := by
  unfold storeBlock
  refine ensure_then (fun _ h => h) fun hnumber => ?_
  refine lift_then (fun _ h => h) fun diffs _ => ?_
  refine lift_then (fun _ h => h) fun replaced _ => ?_
  refine lift_then (fun _ h => h) fun replaced' _ => ?_
  refine Triple.bind (noteClass_triple hQ number replaced') fun _ => ?_
  refine lift_then (fun _ h => h) fun headerHash _ => ?_
  refine lift_then (fun _ h => h) fun _ _ => ?_
  refine Triple.bind (rawEvents_triple number events) fun raw => ?_
  refine lift_then (fun _ h => h) fun rows hrows => ?_
  refine lift_then (fun _ h => h) fun row hrow => ?_
  refine transact_triple fun d d' p hd hinsert => ?_
  exact hstore d d' p row diffs rows replaced' (eq_of_beq hnumber) hrow (eventRows_block hrows) hd
    hinsert

/-- A block described by its header is stored, or the process stops before. -/
theorem storeBlock_triple (hQ : NoteStable Q) (hholds : ∀ d p, Q d p → C.Holds d) {number : Nat}
    {header : BlockHeader} (hheader : C.Describes P header)
    (hstore : ∀ d d' p, Q d p → Inserted C number d d' → R d' p) (update : StateUpdate)
    (events : Option (List RpcEvent)) :
    Triple (On Q) (storeBlock P rpc cfg chunkSize number header update events) (fun _ => On R)
      (On Q) := by
  refine storeBlock_rule hQ (fun d d' p row diffs rows replaced hn hrow _ hd hinsert => ?_) update
    events
  obtain ⟨rfl, hhash⟩ := blockRow_ok hheader hrow
  rw [hn] at hhash
  refine hstore d d' p hd (inserted_of_insertBlockData (hholds d p hd) ?_ hhash hinsert)
  rw [← hn]
  exact hheader.height

/-- The same block, fetched first. -/
theorem ingestBlock_triple (htruthful : C.Truthful P cfg chunkSize rpc) (hQ : NoteStable Q)
    (hholds : ∀ d p, Q d p → C.Holds d) {number : Nat}
    (hstore : ∀ d d' p, Q d p → Inserted C number d d' → R d' p)
    (events : Option (List RpcEvent)) :
    Triple (On Q) (ingestBlock P rpc cfg chunkSize number events) (fun _ => On R) (On Q) := by
  unfold ingestBlock
  refine ask_then (fun _ h => h) ?_
  rintro header ⟨t, hheader⟩
  refine ask_then (fun _ h => h) fun update _ => ?_
  exact storeBlock_triple hQ hholds (htruthful.header _ _ _ hheader) hstore update events

end

/-! ## Examined blocks -/

/-- How far ingest has come from `d₀` and `p₀`: blocks from `start` up to `n`, which is
excluded, are examined. Those with pool events have a row, and so have those that the
tail has passed and that touch the pool. -/
structure Ingested (C : Chain L) (d₀ : Database) (p₀ : List Nat) (start n : Nat) (d : Database)
    (p : List Nat) : Prop where
  holds : C.Holds d
  kept : ∀ k : Int, (d₀.blocks[k]?).isSome → (d.blocks[k]?).isSome
  examined : ∀ m, start ≤ m → m < n → C.events.emitted m ≠ [] → (d.blocks[(m : Int)]?).isSome
  passed : ∀ m ∈ p, m ∈ p₀ ∨ (C.touches m = true → (d.blocks[(m : Int)]?).isSome)
  frontier : ∀ f, d.ingestCursor = some f → 0 ≤ f ∧ f < n ∧ f < 2 ^ 63
  seenHeads : d.seenHeads = d₀.seenHeads
  epochs : d.epochs = d₀.epochs
  metas : ∀ key ∈ ["head_number", "head_hash", "l1_accepted_number"], d.metaGet key = d₀.metaGet key

namespace Ingested

variable {d₀ d d' : Database} {p₀ p : List Nat} {start m n : Nat}

theorem head_ne_note {key note : String} (hkey : key ∈ ["head_number", "head_hash", "l1_accepted_number"])
    (hnote : note = "decode_state" ∨ note = "degraded_since_block") : key ≠ note := by
  rintro rfl
  rcases hnote with rfl | rfl
  · revert hkey
    decide
  · revert hkey
    decide

theorem noteStable : NoteStable (Ingested C d₀ p₀ start n) := by
  intro d p key value hkey h
  refine ⟨h.holds, h.kept, h.examined, h.passed, h.frontier, h.seenHeads, h.epochs, fun k hk => ?_⟩
  rw [← h.metas k hk]
  unfold Database.metaSet Database.metaGet
  rw [getElem?_insert_eq, if_neg (head_ne_note hk hkey)]

/-- Blocks without pool events need no row. -/
theorem skip (h : Ingested C d₀ p₀ start m d p) (hle : m ≤ n)
    (hsilent : ∀ j, m ≤ j → j < n → C.events.emitted j = []) : Ingested C d₀ p₀ start n d p := by
  refine ⟨h.holds, h.kept, fun j hstart hj hne => ?_, h.passed, fun f hf => ?_, h.seenHeads,
    h.epochs, h.metas⟩
  · by_cases hjm : j < m
    · exact h.examined j hstart hjm hne
    · exact absurd (hsilent j (by omega) hj) hne
  · have := h.frontier f hf
    omega

/-- The next block goes in. -/
theorem insert (h : Ingested C d₀ p₀ start n d p) (hins : Inserted C n d d') :
    Ingested C d₀ p₀ start (n + 1) d' p := by
  refine ⟨hins.holds, fun k hk => hins.kept k (h.kept k hk), fun j hstart hj hne => ?_,
    fun j hj => ?_, fun f hf => ?_, hins.seenHeads.trans h.seenHeads, hins.epochs.trans h.epochs,
    fun key hkey => ?_⟩
  · by_cases hjn : j < n
    · exact hins.kept _ (h.examined j hstart hjn hne)
    · rw [show j = n by omega]
      exact hins.has
  · rcases h.passed j hj with hold | hrow
    · exact Or.inl hold
    · exact Or.inr fun ht => hins.kept _ (hrow ht)
  · obtain ⟨r, hr⟩ := Option.isSome_iff_exists.mp hins.has
    obtain ⟨m, hm, hkey, -⟩ := hins.holds n r hr
    have hlt := C.height_lt
    rw [hins.cursor] at hf
    have hval := Option.some.inj hf
    cases hc : d.ingestCursor with
    | none =>
        rw [hc] at hval
        simp only at hval
        omega
    | some g =>
        have := h.frontier g hc
        rw [hc] at hval
        simp only at hval
        omega
  · rw [hins.metas key ?_, h.metas key hkey]
    rintro rfl
    revert hkey
    decide

theorem pass (h : Ingested C d₀ p₀ start n d p) {j : Nat}
    (hj : C.touches j = true → (d.blocks[(j : Int)]?).isSome) :
    Ingested C d₀ p₀ start n d (j :: p) := by
  refine ⟨h.holds, h.kept, h.examined, fun i hi => ?_, h.frontier, h.seenHeads, h.epochs, h.metas⟩
  rcases List.mem_cons.mp hi with rfl | hi
  · exact Or.inr hj
  · exact h.passed i hi

/-- The frontier goes to a block that is examined. -/
theorem setCursor (h : Ingested C d₀ p₀ start n d p) {f : Nat} (hf : f < n) (hlt : f < 2 ^ 63) :
    Ingested C d₀ p₀ start n (d.setIngestCursor f) p := by
  refine ⟨h.holds, h.kept, h.examined, h.passed, fun g hg => ?_, h.seenHeads, h.epochs, h.metas⟩
  have hval : toI64 f = g := Option.some.inj hg
  rw [toI64_of_lt hlt] at hval
  omega

end Ingested

/-! ## The tail -/

section

variable {P : FeltParser} {rpc : RpcClient} {cfg : ChainConfig} {chunkSize : Nat}
variable {d₀ : Database} {p₀ : List Nat} {start : Nat} {latest : BlockHeader}

/-- Wherever the ingest phase stops, it has come some way. -/
def Underway (C : Chain L) (d₀ : Database) (p₀ : List Nat) (start : Nat) :
    Database → List Nat → Prop :=
  fun d p => ∃ n, Ingested C d₀ p₀ start n d p

theorem underway {n : Nat} : ∀ h, On (Ingested C d₀ p₀ start n) h → On (Underway C d₀ p₀ start) h :=
  fun _ h => ⟨n, h⟩

/-- A block of a batch is stored or has nothing of the pool. -/
theorem tailBlock_triple (htruthful : C.Truthful P cfg chunkSize rpc)
    (hlatest : C.Describes P latest) {events : ExtTreeMap Nat (List RpcEvent)} {number : Nat}
    {update : StateUpdate}
    (hevents : (events[number]?).getD [] = [] → C.events.emitted number = [])
    (hupdate : touchesPool P update (feltHex cfg.pool) = C.touches number) :
    Triple (On (Ingested C d₀ p₀ start number))
      (tailBlock P rpc cfg chunkSize latest events number update)
      (fun _ => On (Ingested C d₀ p₀ start (number + 1))) (On (Underway C d₀ p₀ start)) := by
  unfold tailBlock
  simp only
  refine Triple.ite (fun _ => ?_) fun hno => ?_
  · have hheader : Triple (On (Ingested C d₀ p₀ start number)) (tailHeader rpc latest number)
        (fun header h => C.Describes P header ∧ On (Ingested C d₀ p₀ start number) h)
        (On (Underway C d₀ p₀ start)) := by
      unfold tailHeader
      refine Triple.ite (fun _ => Triple.pure fun _ h => ⟨hlatest, h⟩) fun _ => ?_
      refine ((ask_triple _).relax underway).weaken (fun _ h => h) ?_
      rintro header h ⟨⟨t, ht⟩, hQ⟩
      exact ⟨htruthful.header _ _ _ ht, hQ⟩
    refine Triple.bind hheader fun header => Triple.of_and fun hdescribes => ?_
    refine Triple.bind ((storeBlock_triple
      (R := fun d p => Ingested C d₀ p₀ start (number + 1) d p ∧ (d.blocks[(number : Int)]?).isSome)
      Ingested.noteStable (fun d p h => h.holds) hdescribes
      (fun d d' p h hins => ⟨h.insert hins, hins.has⟩) update _).relax underway) fun _ => ?_
    refine Triple.bind (pass_triple fun d p h => h.1.pass fun _ => h.2) fun _ => ?_
    exact Triple.pure fun _ h => h
  · have hsilent : C.events.emitted number = [] ∧ C.touches number = false := by
      rw [Bool.or_eq_true, not_or, Bool.not_eq_true, Bool.not_eq_true, Bool.not_eq_false',
        List.isEmpty_iff, hupdate] at hno
      exact ⟨hevents hno.1, hno.2⟩
    refine Triple.bind (pass_triple fun d p h => ?_) fun _ => Triple.pure fun _ h => h
    refine (h.skip (Nat.le_succ number) fun j hj hlt => ?_).pass fun ht => ?_
    · rw [show j = number by omega]
      exact hsilent.1
    · rw [hsilent.2] at ht
      cases ht

/-- Blocks of a batch, with their updates. -/
theorem tailBlocks_triple (htruthful : C.Truthful P cfg chunkSize rpc)
    (hlatest : C.Describes P latest) {events : ExtTreeMap Nat (List RpcEvent)} {n k : Nat}
    {updates : List StateUpdate}
    (hevents : ∀ m, n ≤ m → m < n + k → (events[m]?).getD [] = [] → C.events.emitted m = [])
    (hupdates : List.Forall₂
      (fun m u => touchesPool P u (feltHex cfg.pool) = C.touches m) (List.range' n k) updates) :
    Triple (On (Ingested C d₀ p₀ start n))
      (((List.range' n k).zip updates).mapM fun e =>
        tailBlock P rpc cfg chunkSize latest events e.1 e.2)
      (fun _ => On (Ingested C d₀ p₀ start (n + k))) (On (Underway C d₀ p₀ start)) := by
  induction k generalizing n updates with
  | zero =>
      rw [List.range'_zero, List.zip_nil_left, List.mapM_nil]
      exact Triple.pure fun _ h => h
  | succ k ih =>
      rw [List.range'_succ] at hupdates ⊢
      cases hupdates with
      | cons hu hrest =>
          rw [List.zip_cons_cons, List.mapM_cons]
          refine Triple.bind (tailBlock_triple htruthful hlatest
            (hevents n (le_refl n) (by omega)) hu) fun _ => ?_
          have htail := ih (fun m hm hlt => hevents m (by omega) (by omega)) hrest
          rw [show n + 1 + k = n + (k + 1) by omega] at htail
          exact Triple.bind htail fun _ => Triple.pure fun _ h => h

/-- A scan takes events of the chain and touches nothing. -/
theorem scan_triple {Q : Database → List Nat → Prop} (htruthful : C.Truthful P cfg chunkSize rpc)
    (first last : Nat) :
    Triple (On Q) (scanActiveBlocks rpc chunkSize first last)
      (fun active h => active = C.events.active first last ∧ On Q h) (On Q) := by
  intro h hQ
  cases hrun : scanActiveBlocks rpc chunkSize first last h with
  | ok active h' =>
      obtain ⟨-, -, -, k, rfl, -⟩ := scanActiveBlocks_used hrun
      exact ⟨scanActiveBlocks_truthful htruthful.events hrun, hQ⟩
  | error e h' =>
      obtain ⟨k, -, rfl, -⟩ := scanActiveBlocks_failed hrun
      exact hQ

/-- What a batch reads of the chain. -/
def Reads (P : FeltParser) (cfg : ChainConfig) (C : Chain L) (first : Nat) (rpcLast : Option Nat)
    (active : List (Nat × List RpcEvent)) (updates : List StateUpdate) : Prop :=
  match rpcLast.filter fun n => first ≤ n with
  | some last => active = C.events.active first last ∧
      List.Forall₂ (fun m u => touchesPool P u (feltHex cfg.pool) = C.touches m)
        (List.range' first (last + 1 - first)) updates
  | none => active = [] ∧ updates = []

theorem tailReads_triple {Q : Database → List Nat → Prop}
    (htruthful : C.Truthful P cfg chunkSize rpc) (first : Nat) (rpcLast : Option Nat) :
    Triple (On Q) (tailReads rpc chunkSize first rpcLast)
      (fun r h => Reads P cfg C first rpcLast r.1 r.2 ∧ On Q h) (On Q) := by
  unfold tailReads Reads
  cases rpcLast.filter fun n => first ≤ n with
  | none => exact Triple.pure fun _ h => ⟨⟨rfl, rfl⟩, h⟩
  | some last =>
      refine Triple.bind (scan_triple htruthful first last) fun active => Triple.of_and fun ha => ?_
      have hask : ∀ n, Triple (On Q) (ask fun t => rpc.getStateUpdate t n)
          (fun u h => touchesPool P u (feltHex cfg.pool) = C.touches n ∧ On Q h) (On Q) := by
        intro n
        refine (ask_triple _).weaken (fun _ h => h) ?_
        rintro u h ⟨⟨t, ht⟩, hQ⟩
        exact ⟨htruthful.update t n u ht, hQ⟩
      refine Triple.bind (Triple.mapM hask _) fun updates => Triple.of_and fun hu => ?_
      exact Triple.pure fun _ h => ⟨⟨ha, hu⟩, h⟩

/-- A listing of active blocks, as a table. -/
theorem getD_ofList_active (chain : PoolEvents) {first last m : Nat} (hm : first ≤ m ∧ m ≤ last)
    (hnone : ((ExtTreeMap.ofList (chain.active first last) : ExtTreeMap Nat (List RpcEvent))[m]?).getD
      [] = []) : chain.emitted m = [] := by
  by_contra hne
  have hmem : (m, chain.emitted m) ∈ chain.active first last :=
    (chain.mem_active).mpr ⟨hm, hne, rfl⟩
  have hdistinct : (chain.active first last).Pairwise fun a b => ¬ compare a.1 b.1 = .eq := by
    refine (List.pairwise_map.mp (chain.nodup_active first last)).imp fun {a b} hab heq => ?_
    exact hab (Std.LawfulEqCmp.eq_of_compare heq)
  rw [ExtTreeMap.getElem?_ofList_of_mem Std.ReflCmp.compare_self hdistinct hmem] at hnone
  exact hne hnone

/-- The block that came with the header is that of the chain. -/
def Supplied (P : FeltParser) (cfg : ChainConfig) (C : Chain L) (number : Nat)
    (supplied : Option BlockData) : Prop :=
  ∀ data, supplied = some data →
    touchesPool P data.update (feltHex cfg.pool) = C.touches number ∧
      (data.events = [] ↔ C.events.emitted number = [])

/-- Reads up to the block that is at hand, and that block. -/
theorem reads_own {first n : Nat} (hfirst : first ≤ n) {data : BlockData}
    (hdata : Supplied P cfg C n (some data)) {active : List (Nat × List RpcEvent)}
    {updates : List StateUpdate}
    (h : Reads P cfg C first (if n = 0 then none else some (n - 1)) active updates) :
    List.Forall₂ (fun m u => touchesPool P u (feltHex cfg.pool) = C.touches m)
      (List.range' first (n + 1 - first)) (updates ++ [data.update]) ∧
    ∀ m, first ≤ m → m ≤ n →
      ((((ExtTreeMap.ofList active : ExtTreeMap Nat (List RpcEvent)).insert n data.events)[m]?).getD
        [] = []) → C.events.emitted m = [] := by
  obtain ⟨hupdate, hevents⟩ := hdata data rfl
  have hlast : List.range' first (n + 1 - first) = List.range' first (n - first) ++ [n] := by
    rw [show n + 1 - first = (n - first) + 1 by omega, List.range'_concat, Nat.one_mul,
      show first + (n - first) = n by omega]
  have hown : List.Forall₂ (fun m u => touchesPool P u (feltHex cfg.pool) = C.touches m) [n]
      [data.update] := List.Forall₂.cons hupdate List.Forall₂.nil
  have hbelow : List.Forall₂ (fun m u => touchesPool P u (feltHex cfg.pool) = C.touches m)
      (List.range' first (n - first)) updates ∧
      ∀ m, first ≤ m → m < n →
        (((ExtTreeMap.ofList active : ExtTreeMap Nat (List RpcEvent))[m]?).getD [] = []) →
          C.events.emitted m = [] := by
    unfold Reads at h
    by_cases hprev : n ≠ 0 ∧ first ≤ n - 1
    · rw [if_neg hprev.1, Option.filter_some_pos (by simpa using hprev.2)] at h
      obtain ⟨rfl, hforall⟩ := h
      rw [show n - 1 + 1 - first = n - first by omega] at hforall
      exact ⟨hforall, fun m hm hlt hnone => getD_ofList_active C.events ⟨hm, by omega⟩ hnone⟩
    · have hempty : (if n = 0 then none else some (n - 1)).filter (fun k => decide (first ≤ k)) = none := by
        by_cases hn : n = 0
        · rw [if_pos hn]
          rfl
        · rw [if_neg hn, Option.filter_some_neg]
          simpa using fun hle => hprev ⟨hn, hle⟩
      rw [hempty] at h
      obtain ⟨rfl, rfl⟩ := h
      rw [show n - first = 0 by omega, List.range'_zero]
      exact ⟨List.Forall₂.nil, fun m hm hlt => absurd hlt (by omega)⟩
  refine ⟨?_, fun m hm hle hnone => ?_⟩
  · rw [hlast]
    exact List.rel_append hbelow.1 hown
  · rw [getElem?_insert_eq] at hnone
    by_cases hmn : m = n
    · rw [if_pos hmn, Option.getD_some] at hnone
      rw [hmn]
      exact hevents.mp hnone
    · rw [if_neg hmn] at hnone
      exact hbelow.2 m hm (by omega) hnone

theorem reads_rpc {first last : Nat} (hfirst : first ≤ last)
    {active : List (Nat × List RpcEvent)} {updates : List StateUpdate}
    (h : Reads P cfg C first (some last) active updates) :
    List.Forall₂ (fun m u => touchesPool P u (feltHex cfg.pool) = C.touches m)
      (List.range' first (last + 1 - first)) updates ∧
    ∀ m, first ≤ m → m ≤ last →
      (((ExtTreeMap.ofList active : ExtTreeMap Nat (List RpcEvent))[m]?).getD [] = []) →
        C.events.emitted m = [] := by
  unfold Reads at h
  rw [Option.filter_some_pos (by simpa using hfirst)] at h
  obtain ⟨rfl, hforall⟩ := h
  exact ⟨hforall, fun m hm hle hnone => getD_ofList_active C.events ⟨hm, hle⟩ hnone⟩

theorem tailBatch_triple (htruthful : C.Truthful P cfg chunkSize rpc)
    (hlatest : C.Describes P latest) {supplied : Option BlockData}
    (hsupplied : Supplied P cfg C latest.blockNumber supplied) {first : Nat}
    (hfirst : first ≤ latest.blockNumber) :
    Triple (On (Ingested C d₀ p₀ start first))
      (tailBatch P rpc cfg chunkSize latest supplied first)
      (fun _ => On (Ingested C d₀ p₀ start (min (first + (8 - 1)) latest.blockNumber + 1)))
      (On (Underway C d₀ p₀ start)) := by
  have hheight := hlatest.height
  have hlt := C.height_lt
  have hle : first ≤ min (first + 7) latest.blockNumber := le_min (by omega) hfirst
  have hend : min (first + 7) latest.blockNumber ≤ latest.blockNumber := min_le_right _ _
  unfold tailBatch
  simp only
  refine Triple.bind ((tailReads_triple htruthful _ _).relax underway) fun r => ?_
  obtain ⟨active, updates⟩ := r
  refine Triple.of_and fun hreads => ?_
  simp only at hreads ⊢
  -- the batch ends with a write of the frontier, whatever it has read
  have hbatch : ∀ (events : ExtTreeMap Nat (List RpcEvent)) (us : List StateUpdate),
      (∀ m, first ≤ m → m ≤ min (first + 7) latest.blockNumber → (events[m]?).getD [] = [] →
        C.events.emitted m = []) →
      List.Forall₂ (fun m u => touchesPool P u (feltHex cfg.pool) = C.touches m)
        (List.range' first (min (first + 7) latest.blockNumber + 1 - first)) us →
      Triple (On (Ingested C d₀ p₀ start first))
        (do
          let counts ← ((List.range' first (min (first + 7) latest.blockNumber + 1 - first)).zip us).mapM
            fun e => tailBlock P rpc cfg chunkSize latest events e.1 e.2
          write fun d => d.setIngestCursor (min (first + 7) latest.blockNumber)
          pure counts.sum)
        (fun _ => On (Ingested C d₀ p₀ start (min (first + (8 - 1)) latest.blockNumber + 1)))
        (On (Underway C d₀ p₀ start)) := by
    intro events us hevents hus
    have hblocks : Triple (On (Ingested C d₀ p₀ start first)) _ _ (On (Underway C d₀ p₀ start)) :=
      tailBlocks_triple htruthful hlatest (fun m hm hmlt => hevents m hm (by omega)) hus
    rw [show first + (min (first + 7) latest.blockNumber + 1 - first) =
      min (first + (8 - 1)) latest.blockNumber + 1 by omega] at hblocks
    refine Triple.bind hblocks fun counts => ?_
    exact write_then underway (fun d p h => h.setCursor (by omega) (by omega))
      (Triple.pure fun _ h => h)
  by_cases hlast : min (first + 7) latest.blockNumber = latest.blockNumber
  · rw [if_pos hlast] at hreads ⊢
    cases supplied with
    | none =>
        obtain ⟨hus, hevents⟩ := reads_rpc hle hreads
        exact hbatch _ _ hevents hus
    | some data =>
        simp only [Option.isSome_some, if_true, hlast] at hreads
        obtain ⟨hus, hevents⟩ := reads_own hfirst hsupplied hreads
        refine hbatch _ _ (fun m hm hmle hnone => ?_) ?_
        · rw [hlast] at hmle hnone
          exact hevents m hm hmle hnone
        · rw [hlast]
          exact hus
  · rw [if_neg hlast] at hreads ⊢
    obtain ⟨hus, hevents⟩ := reads_rpc hle hreads
    exact hbatch _ _ hevents hus

/-- The tail covers everything from its first block to the latest one. -/
theorem ingestTail_triple (htruthful : C.Truthful P cfg chunkSize rpc)
    (hlatest : C.Describes P latest) {supplied : Option BlockData}
    (hsupplied : Supplied P cfg C latest.blockNumber supplied) (first : Nat) :
    Triple (On (Ingested C d₀ p₀ start first))
      (ingestTail P rpc cfg chunkSize first latest supplied)
      (fun _ => On (Ingested C d₀ p₀ start (max first (latest.blockNumber + 1))))
      (On (Underway C d₀ p₀ start)) := by
  unfold ingestTail
  by_cases hfirst : first ≤ latest.blockNumber + 1
  · rw [max_eq_right hfirst]
    refine Triple.bind (Triple.mapM_steps (I := fun n => On (Ingested C d₀ p₀ start n)) (by decide)
      (fun s hs => tailBatch_triple htruthful hlatest hsupplied hs) _ first hfirst rfl) fun counts => ?_
    exact Triple.pure fun _ h => h
  · rw [max_eq_left (by omega), show latest.blockNumber + 1 - first = 0 by omega]
    exact Triple.bind (M := fun _ => On (Ingested C d₀ p₀ start first)) (Triple.pure fun _ h => h)
      fun _ => Triple.pure fun _ h => h

/-! ## Segments -/

/-- The active blocks of a range go in one by one; between them nothing happens. -/
theorem ingestActive_triple (htruthful : C.Truthful P cfg chunkSize rpc) {k : Nat} :
    ∀ n, n + k ≤ C.height + 1 →
      Triple (On (Ingested C d₀ p₀ start n))
        (ingestActive P rpc cfg chunkSize ((List.range' n k).filterMap fun m =>
          if C.events.emitted m = [] then none else some (m, C.events.emitted m)))
        (fun _ => On (Ingested C d₀ p₀ start (n + k))) (On (Underway C d₀ p₀ start)) := by
  have hlt := C.height_lt
  induction k with
  | zero =>
      intro n _
      exact Triple.pure fun _ h => h
  | succ k ih =>
      intro n hn
      have hrest := ih (n + 1) (by omega)
      rw [show n + 1 + k = n + (k + 1) by omega] at hrest
      rw [List.range'_succ]
      by_cases hempty : C.events.emitted n = []
      · rw [List.filterMap_cons_none (by rw [if_pos hempty])]
        refine fun h hQ => hrest h ?_
        refine Ingested.skip hQ (Nat.le_succ n) fun j hj hjlt => ?_
        rw [show j = n by omega]
        exact hempty
      · rw [List.filterMap_cons_some (by rw [if_neg hempty])]
        refine Triple.bind (y := ingestBlock P rpc cfg chunkSize n (some (C.events.emitted n)) >>=
          fun _ => write fun d => d.setIngestCursor n) ?_ fun _ => hrest
        refine Triple.bind ((ingestBlock_triple htruthful Ingested.noteStable (fun d p h => h.holds)
          (fun d d' p h hins => h.insert hins) _).relax underway) fun _ => ?_
        exact (write_triple fun d p h => h.setCursor (Nat.lt_succ_self n) (by omega)).relax underway

theorem ingestSegment_triple (htruthful : C.Truthful P cfg chunkSize rpc) {last first : Nat}
    (hlast : last ≤ C.height) (hfirst : first ≤ last) :
    Triple (On (Ingested C d₀ p₀ start first)) (ingestSegment P rpc cfg chunkSize last first)
      (fun _ => On (Ingested C d₀ p₀ start (min (first + (SCAN_SEGMENT - 1)) last + 1)))
      (On (Underway C d₀ p₀ start)) := by
  have hlt := C.height_lt
  have hle : first ≤ min (first + (SCAN_SEGMENT - 1)) last := le_min (by omega) hfirst
  have hend : min (first + (SCAN_SEGMENT - 1)) last ≤ last := min_le_right _ _
  unfold ingestSegment
  simp only
  refine Triple.bind ((scan_triple htruthful _ _).relax underway) fun active => ?_
  refine Triple.of_and fun hactive => ?_
  have hblocks : Triple (On (Ingested C d₀ p₀ start first)) _ _ (On (Underway C d₀ p₀ start)) :=
    ingestActive_triple htruthful first
      (k := min (first + (SCAN_SEGMENT - 1)) last + 1 - first) (by omega)
  rw [show first + (min (first + (SCAN_SEGMENT - 1)) last + 1 - first) =
    min (first + (SCAN_SEGMENT - 1)) last + 1 by omega] at hblocks
  rw [hactive]
  refine Triple.bind hblocks fun _ => ?_
  exact write_then underway (fun d p h => h.setCursor (Nat.lt_succ_self _) (by omega))
    (Triple.pure fun _ h => h)

theorem ingestSegments_triple (htruthful : C.Truthful P cfg chunkSize rpc) {last : Nat}
    (hlast : last ≤ C.height) (first : Nat) :
    Triple (On (Ingested C d₀ p₀ start first)) (ingestSegments P rpc cfg chunkSize first last)
      (fun _ => On (Ingested C d₀ p₀ start (max first (last + 1))))
      (On (Underway C d₀ p₀ start)) := by
  unfold ingestSegments
  by_cases hfirst : first ≤ last + 1
  · rw [max_eq_right hfirst]
    refine Triple.bind (Triple.mapM_steps (I := fun n => On (Ingested C d₀ p₀ start n)) (by decide)
      (fun s hs => ingestSegment_triple htruthful hlast hs) _ first hfirst rfl) fun counts => ?_
    exact Triple.pure fun _ h => h
  · rw [max_eq_left (by omega), show last + 1 - first = 0 by omega]
    exact Triple.bind (M := fun _ => On (Ingested C d₀ p₀ start first)) (Triple.pure fun _ h => h)
      fun _ => Triple.pure fun _ h => h

end

end

end Strk20.Indexer
