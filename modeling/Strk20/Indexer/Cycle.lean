import Strk20.Indexer.Chain

/-!
# One ingest cycle against a chain (`ingest.rs`)

A cycle reads until it has decided about a reorg, writes down the finality it was
told, rolls back, ingests, and records the head last. `CycleState` lists where a
cycle can be found: it may stop after any of its writes. What it takes for the
ingest phase to make sense is that the rows left by the rollback are on the chain.
-/

namespace Strk20.Indexer

open Feed Tables
open Effect (Triple lift)
open Consumer (toI64 toU64 toI64_of_lt)
open Std (ExtTreeMap)

/-- The database and the passed blocks are these. -/
def Is (d₀ : Database) (p₀ : List Nat) : Database → List Nat → Prop := fun d p => d = d₀ ∧ p = p₀

/-- What a predicate allows may be taken one by one. -/
theorem on_fixed {Q : Database → List Nat → Prop} {α : Type} {x : Indexing α}
    {post : α → Host → Prop} {exc : Host → Prop}
    (h : ∀ d p, Q d p → Triple (On (Is d p)) x post exc) : Triple (On Q) x post exc :=
  fun s hs => h s.database s.passed hs s ⟨rfl, rfl⟩

theorem readDb_then {d₀ : Database} {p₀ : List Nat} {α β : Type} {g : Database → α}
    {f : α → Indexing β} {post : β → Host → Prop} {exc : Host → Prop}
    (hf : Triple (On (Is d₀ p₀)) (f (g d₀)) post exc) :
    Triple (On (Is d₀ p₀)) (readDb g >>= f) post exc := by
  intro h hQ
  have hread : readDb g h = .ok (g d₀) h := by
    rw [← hQ.1]
    rfl
  rw [Effect.bind_of_ok hread]
  exact hf h hQ

section

variable {L : Ledger} {C : Chain L}
variable {P : FeltParser} {rpc : RpcClient} {cfg : ChainConfig} {chunkSize : Nat}
variable {Q : Database → List Nat → Prop}

theorem findBlock_triple (number : Nat) :
    Triple (On Q) (findBlock rpc number)
      (fun r h => (∀ header, r = some header → ∃ t, rpc.getBlock t (.number number) = .ok header) ∧
        On Q h) (On Q) := by
  intro h hQ
  unfold findBlock
  cases hanswer : rpc.getBlock h.moment (.number number) with
  | ok header => exact ⟨fun header' heq => ⟨h.moment, by rw [hanswer, Option.some.inj heq]⟩, hQ⟩
  | error e =>
      cases e with
      | blockNotFound => exact ⟨fun header' heq => (by cases heq), hQ⟩
      | _ => exact hQ

/-! ## The decision about a reorg -/

namespace Database

/-- The head that the last cycle has recorded, as far as both halves are there. -/
def recordedHead (d : Database) : Option (Nat × String) :=
  match d.metaU64 "head_number", d.metaGet "head_hash" with
  | some head, some stored => some (head, stored)
  | _, _ => none

/-- Height that was recorded as final. -/
def finalUpto (d : Database) : Nat := (d.metaU64 "l1_accepted_number").getD 0

end Database

/-- The recorded head is a block of the chain. -/
def Chain.HasHead (C : Chain L) (d : Database) : Prop :=
  ∃ n, n ≤ C.height ∧ d.recordedHead = some (n, feltHex (C.hash n))

/-- A row that stops the walk without a question. -/
def Database.Final (d : Database) (b : BlockRow) : Prop :=
  b.l1Accepted = true ∧ b.number ≤ d.finalUpto

/-- Where a walk over stored rows ends: at a row of the chain, at one recorded as final,
or at the floor. -/
def StopsAt (C : Chain L) (d : Database) (ancestor : Nat) : Prop :=
  ancestor = d.epochFloor ∨ ∃ head, ∃ b ∈ d.blocksInRange (d.epochFloor + 1) head,
    b.number = ancestor ∧ (d.Final b ∨ ancestor ≤ C.height ∧ b.hash = C.hash ancestor)

/-- What a cycle knows when it has looked for a reorg. -/
def Decided (C : Chain L) (d : Database) : Option Nat → Prop
  | none => d.recordedHead = none ∨ C.HasHead d
  | some ancestor => StopsAt C d ancestor

theorem parseFelt_of_normalizeHex {s t : String} (h : normalizeHex P s = .ok t) :
    ∃ f, parseFelt P s = .ok f ∧ t = feltHex f := by
  unfold normalizeHex at h
  cases hs : parseFelt P s with
  | error e =>
      rw [hs] at h
      cases h
  | ok f =>
      rw [hs] at h
      cases h
      exact ⟨f, rfl, rfl⟩

/-- A described header names the stored head only if the chain has it. -/
theorem hasHead_of_namesHead {d : Database} {latest : BlockHeader}
    (hlatest : C.Describes P latest) {head : Nat} {stored : String}
    (hrecorded : d.recordedHead = some (head, stored))
    (h : namesHead P (some latest) head stored = true) : C.HasHead d := by
  have hnormal : ∀ (s : String) (n : Nat), parseFelt P s = .ok (C.hash n) →
      normalizeHex P s = .ok (feltHex (C.hash n)) := by
    intro s n hs
    unfold normalizeHex
    rw [hs]
    rfl
  have hheight := hlatest.height
  unfold namesHead at h
  simp only at h
  by_cases hsame : latest.blockNumber = head
  · rw [if_pos hsame] at h
    simp only [hnormal _ head (hsame ▸ hlatest.hash)] at h
    exact ⟨head, by omega, by rw [hrecorded, ← eq_of_beq h]⟩
  · rw [if_neg hsame] at h
    by_cases hnext : latest.blockNumber ≠ 0 ∧ latest.blockNumber - 1 = head
    · rw [if_pos hnext] at h
      simp only [hnormal _ head (hnext.2 ▸ hlatest.parent (by omega))] at h
      exact ⟨head, by omega, by rw [hrecorded, ← eq_of_beq h]⟩
    · rw [if_neg hnext] at h
      cases h

theorem headGone_triple (htruthful : C.Truthful P cfg chunkSize rpc) (head : Nat) (stored : String) :
    Triple (On Q) (headGone P rpc head stored)
      (fun gone h => (gone = false → head ≤ C.height ∧ stored = feltHex (C.hash head)) ∧ On Q h)
      (On Q) := by
  unfold headGone
  refine Triple.bind (findBlock_triple head) fun found => ?_
  refine Triple.of_and fun hfound => ?_
  cases found with
  | none => exact Triple.pure fun _ h => ⟨fun heq => (by cases heq), h⟩
  | some header =>
      obtain ⟨t, ht⟩ := hfound header rfl
      have hdescribes := htruthful.header _ _ _ ht
      have hnumber := htruthful.number _ _ _ ht
      refine lift_then (fun _ h => h) fun s hs => ?_
      obtain ⟨f, hf, rfl⟩ := parseFelt_of_normalizeHex hs
      have hsame : f = C.hash head := by
        rw [hdescribes.hash, hnumber] at hf
        exact (Except.ok.inj hf).symm
      refine Triple.pure fun _ h => ⟨fun hgone => ⟨?_, ?_⟩, h⟩
      · rw [← hnumber]
        exact hdescribes.height
      · rw [← hsame]
        exact (not_not.mp (of_decide_eq_false hgone)).symm

/-- The walk ends at a row that is final or on the chain, or at the floor. -/
theorem walkback_triple (htruthful : C.Truthful P cfg chunkSize rpc) (finalUpto floor : Nat) :
    ∀ rows : List BlockRow, Triple (On Q) (walkback P rpc finalUpto floor rows)
      (fun ancestor h => (ancestor = floor ∨ ∃ b ∈ rows, b.number = ancestor ∧
        ((b.l1Accepted = true ∧ b.number ≤ finalUpto) ∨
          ancestor ≤ C.height ∧ b.hash = C.hash ancestor)) ∧ On Q h) (On Q)
  | [] => Triple.pure fun _ h => ⟨Or.inl rfl, h⟩
  | b :: rows => by
      have hrest : Triple (On Q) (walkback P rpc finalUpto floor rows)
          (fun ancestor h => (ancestor = floor ∨ ∃ r ∈ b :: rows, r.number = ancestor ∧
            ((r.l1Accepted = true ∧ r.number ≤ finalUpto) ∨
              ancestor ≤ C.height ∧ r.hash = C.hash ancestor)) ∧ On Q h) (On Q) := by
        refine (walkback_triple htruthful finalUpto floor rows).weaken (fun _ h => h) ?_
        rintro ancestor h ⟨hfloor | ⟨r, hr, hstop⟩, hQ⟩
        · exact ⟨Or.inl hfloor, hQ⟩
        · exact ⟨Or.inr ⟨r, List.mem_cons_of_mem b hr, hstop⟩, hQ⟩
      unfold walkback
      refine Triple.ite (fun hfinal => Triple.pure fun _ h => ⟨Or.inr ?_, h⟩) fun _ => ?_
      · rw [Bool.and_eq_true, decide_eq_true_eq] at hfinal
        exact ⟨b, List.mem_cons_self, rfl, Or.inl hfinal⟩
      · refine Triple.bind (findBlock_triple b.number) fun found => ?_
        refine Triple.of_and fun hfound => ?_
        cases found with
        | none => exact hrest
        | some header =>
            obtain ⟨t, ht⟩ := hfound header rfl
            have hdescribes := htruthful.header _ _ _ ht
            have hnumber := htruthful.number _ _ _ ht
            refine lift_then (fun _ h => h) fun f hf => ?_
            rw [hdescribes.hash, hnumber] at hf
            refine Triple.ite (fun hsame => Triple.pure fun _ h => ⟨Or.inr ?_, h⟩) fun _ => hrest
            refine ⟨b, List.mem_cons_self, rfl, Or.inr ⟨hnumber ▸ hdescribes.height, ?_⟩⟩
            rw [← hsame]
            exact (Except.ok.inj hf).symm

/-- Looking for a reorg reads and decides. -/
theorem detectReorg_triple (htruthful : C.Truthful P cfg chunkSize rpc) {latest : BlockHeader}
    (hlatest : C.Describes P latest) {d₀ : Database} {p₀ : List Nat} :
    Triple (On (Is d₀ p₀)) (detectReorg P rpc (some latest))
      (fun r h => Decided C d₀ r ∧ On (Is d₀ p₀) h) (On (Is d₀ p₀)) := by
  unfold detectReorg
  refine readDb_then ?_
  simp only [id]
  cases hnumber : d₀.metaU64 "head_number" with
  | none => exact Triple.pure fun _ h => ⟨Or.inl (by unfold Database.recordedHead; rw [hnumber]), h⟩
  | some head =>
      cases hstored : d₀.metaGet "head_hash" with
      | none =>
          exact Triple.pure fun _ h =>
            ⟨Or.inl (by unfold Database.recordedHead; rw [hnumber, hstored]), h⟩
      | some stored =>
          have hrecorded : d₀.recordedHead = some (head, stored) := by
            unfold Database.recordedHead
            rw [hnumber, hstored]
          simp only
          refine Triple.ite (fun hnames => ?_) fun _ => ?_
          · exact Triple.pure fun _ h => ⟨Or.inr (hasHead_of_namesHead hlatest hrecorded hnames), h⟩
          · refine Triple.bind (headGone_triple htruthful head stored) fun gone => ?_
            refine Triple.of_and fun hgone => Triple.ite (fun hstay => ?_) fun _ => ?_
            · obtain ⟨hle, hhash⟩ := hgone (by simpa using hstay)
              exact Triple.pure fun _ h => ⟨Or.inr ⟨head, hle, by rw [hrecorded, hhash]⟩, h⟩
            · refine Triple.bind (walkback_triple htruthful _ _ _) fun ancestor => ?_
              refine Triple.of_and fun hstop => Triple.pure fun _ h => ⟨?_, h⟩
              rcases hstop with hfloor | ⟨b, hb, hbnumber, hwhy⟩
              · exact Or.inl hfloor
              · exact Or.inr ⟨head, b, List.mem_reverse.mp hb, hbnumber, hwhy⟩

/-! ## Finality -/

/-- Rows may be marked final, and finality metas written; nothing else changes. -/
structure Promoted (d d' : Database) : Prop where
  hashes : ∀ k : Int, (d'.blocks[k]?).map BlockRec.hash = (d.blocks[k]?).map BlockRec.hash
  ingestCursor : d'.ingestCursor = d.ingestCursor
  seenHeads : d'.seenHeads = d.seenHeads
  epochs : d'.epochs = d.epochs
  headNumber : d'.metaGet "head_number" = d.metaGet "head_number"
  headHash : d'.metaGet "head_hash" = d.metaGet "head_hash"

namespace Promoted

theorem refl (d : Database) : Promoted d d := ⟨fun _ => rfl, rfl, rfl, rfl, rfl, rfl⟩

theorem trans {d d' d'' : Database} (h : Promoted d d') (h' : Promoted d' d'') : Promoted d d'' :=
  ⟨fun k => (h'.hashes k).trans (h.hashes k), h'.ingestCursor.trans h.ingestCursor,
    h'.seenHeads.trans h.seenHeads, h'.epochs.trans h.epochs, h'.headNumber.trans h.headNumber,
    h'.headHash.trans h.headHash⟩

theorem promoteL1 (d : Database) (upto : Nat) : Promoted d (d.promoteL1 upto) := by
  refine ⟨fun k => ?_, rfl, rfl, rfl, rfl, rfl⟩
  unfold Database.promoteL1
  rw [ExtTreeMap.getElem?_map]
  cases d.blocks[k]? with
  | none => rfl
  | some r =>
      rw [Option.map_some, Option.map_some, Option.map_some, Option.some_inj]
      split
      · rfl
      · rfl

theorem metaSet (d : Database) {key : String} (value : String)
    (hnumber : key ≠ "head_number") (hhash : key ≠ "head_hash") :
    Promoted d (d.metaSet key value) := by
  refine ⟨fun k => rfl, rfl, rfl, rfl, ?_, ?_⟩
  · unfold Database.metaGet Database.metaSet
    rw [getElem?_insert_eq, if_neg hnumber.symm]
  · unfold Database.metaGet Database.metaSet
    rw [getElem?_insert_eq, if_neg hhash.symm]

/-- The same blocks are stored. -/
theorem row {d d' : Database} (h : Promoted d d') {k : Int} {r : BlockRec}
    (hr : d'.blocks[k]? = some r) : ∃ r₀, d.blocks[k]? = some r₀ ∧ r₀.hash = r.hash := by
  have hk := h.hashes k
  rw [hr] at hk
  exact Option.map_eq_some_iff.mp hk.symm

theorem isSome {d d' : Database} (h : Promoted d d') (k : Int) :
    (d'.blocks[k]?).isSome = (d.blocks[k]?).isSome := by
  have hk := congrArg Option.isSome (h.hashes k)
  rwa [Option.isSome_map, Option.isSome_map] at hk

theorem holds {d d' : Database} (h : Promoted d d') (hd : C.Holds d) : C.Holds d' := by
  intro k r hr
  obtain ⟨r₀, hr₀, hhash⟩ := h.row hr
  rw [← hhash]
  exact hd k r₀ hr₀

end Promoted

theorem pollFinality_triple {d₀ : Database} {p₀ : List Nat} (l1 latest : BlockHeader) :
    Triple (On (Is d₀ p₀)) (pollFinality cfg l1 latest)
      (fun _ => On fun d p => Promoted d₀ d ∧ p = p₀) (On fun d p => Promoted d₀ d ∧ p = p₀) := by
  have hstart : ∀ h, On (Is d₀ p₀) h → On (fun d p => Promoted d₀ d ∧ p = p₀) h := by
    rintro h ⟨hd, hp⟩
    exact ⟨hd ▸ Promoted.refl _, hp⟩
  unfold pollFinality
  refine readDb_then ?_
  simp only [id]
  cases l1AnswerRejection l1 latest.blockNumber (d₀.metaU64 "l1_accepted_number") cfg.genesisBlock with
  | none =>
      refine write_then (R := fun d p => Promoted d₀ d ∧ p = p₀) hstart ?_ ?_
      · rintro d p ⟨rfl, rfl⟩
        exact ⟨Promoted.promoteL1 _ _, rfl⟩
      · refine write_then (fun _ h => h) (fun d p h => ⟨h.1.trans
          (Promoted.metaSet d _ (by decide) (by decide)), h.2⟩) (Triple.pure fun _ h => h)
  | some reason =>
      refine Triple.bind (M := fun _ => On fun d p => Promoted d₀ d ∧ p = p₀) ?_ fun _ =>
        Triple.pure fun _ h => h
      unfold bumpL1Rejections
      refine readDb_then ?_
      refine (write_triple (R := fun d p => Promoted d₀ d ∧ p = p₀) ?_).relax hstart
      rintro d p ⟨rfl, rfl⟩
      exact ⟨Promoted.metaSet _ _ (by decide) (by decide), rfl⟩

/-! ## The phases that write -/

/-- The database after the rollback that was decided on, if any. -/
def rolledBack (reorg : Option Nat) (d : Database) : Database :=
  match reorg with
  | some ancestor => d.rollbackAbove ancestor
  | none => d

def unpassed (reorg : Option Nat) (p : List Nat) : List Nat :=
  match reorg with
  | some ancestor => p.filter fun n => n ≤ ancestor
  | none => p

theorem rollBack_triple {d₀ : Database} {p₀ : List Nat} (reorg : Option Nat) :
    Triple (On (Is d₀ p₀)) (rollBack reorg)
      (fun _ => On (Is (rolledBack reorg d₀) (unpassed reorg p₀))) (On (Is d₀ p₀)) := by
  unfold rollBack rolledBack unpassed
  cases reorg with
  | none => exact Triple.pure fun _ h => h
  | some ancestor =>
      refine write_then (R := Is (d₀.rollbackAbove ancestor) p₀) (fun _ h => h) ?_ ?_
      · rintro d p ⟨rfl, rfl⟩
        exact ⟨rfl, rfl⟩
      · refine unpass_triple ?_
        rintro d p ⟨rfl, rfl⟩
        exact ⟨rfl, rfl⟩

/-- What ingest needs: the rows are on the chain, and the frontier is a height. -/
structure Ready (C : Chain L) (d : Database) : Prop where
  holds : C.Holds d
  frontier : ∀ f, d.ingestCursor = some f → 0 ≤ f ∧ f < 2 ^ 63

/-- First block that a cycle has not seen. -/
def firstUnseen (cfg : ChainConfig) (d : Database) : Nat := scanFrontier cfg d + 1

theorem Ready.ingested {d : Database} (h : Ready C d) (p : List Nat) :
    Ingested C d p (firstUnseen cfg d) (firstUnseen cfg d) d p where
  holds := h.holds
  kept := fun _ hk => hk
  examined := fun m hstart hlt => absurd hlt (by omega)
  passed := fun m hm => Or.inl hm
  frontier := by
    intro f hf
    obtain ⟨hlow, hhigh⟩ := h.frontier f hf
    refine ⟨hlow, ?_, hhigh⟩
    unfold firstUnseen scanFrontier Database.cursor
    rw [hf]
    simp only [Option.map_some, toU64]
    omega
  seenHeads := rfl
  epochs := rfl
  metas := fun _ _ => rfl

theorem ingestUpTo_triple (htruthful : C.Truthful P cfg chunkSize rpc) {latest : BlockHeader}
    (hlatest : C.Describes P latest) {supplied : Option BlockData}
    (hsupplied : Supplied P cfg C latest.blockNumber supplied) {d : Database} {p : List Nat}
    (hready : Ready C d) :
    Triple (On (Is d p)) (ingestUpTo P rpc cfg chunkSize latest supplied)
      (fun _ => On (Ingested C d p (firstUnseen cfg d)
        (max (firstUnseen cfg d) (latest.blockNumber + 1))))
      (On (Underway C d p (firstUnseen cfg d))) := by
  have hstart : ∀ h, On (Is d p) h → On (Ingested C d p (firstUnseen cfg d) (firstUnseen cfg d)) h := by
    rintro h ⟨hd, hp⟩
    show Ingested C d p _ _ h.database h.passed
    rw [hd, hp]
    exact hready.ingested p
  unfold ingestUpTo
  refine readDb_then ?_
  simp only [id]
  refine Triple.ite (fun _ => ?_) fun _ => ?_
  · exact (ingestTail_triple htruthful hlatest hsupplied _).weaken hstart fun _ _ h => h
  · exact (ingestSegments_triple htruthful hlatest.height _).weaken hstart fun _ _ h => h

/-- Head metas and the head's hash are written one after the other. -/
inductive Recording (number : Nat) (hash : Felt) (d : Database) : Database → Prop
  | number : Recording number hash d (d.metaSet "head_number" number.repr)
  | hash : Recording number hash d
      ((d.metaSet "head_number" number.repr).metaSet "head_hash" (feltHex hash))

/-- All of them. -/
def withHead (number : Nat) (hash : Felt) (d : Database) : Database :=
  ((d.metaSet "head_number" number.repr).metaSet "head_hash" (feltHex hash)).recordSeenHead hash number

/-- Rows may have been marked final since. -/
def Recorded (number : Nat) (hash : Felt) (d d' : Database) : Prop :=
  d' = withHead number hash d ∨ ∃ upto, d' = (withHead number hash d).promoteL1 upto

theorem recordHead_triple {latest : BlockHeader} (hlatest : C.Describes P latest)
    (finalHeight : Option Nat) (Q : Database → List Nat → Prop) :
    Triple (On Q)
      (recordHead P latest (feltHex (C.hash latest.blockNumber)) finalHeight)
      (fun _ => On fun d' p =>
        ∃ d, Q d p ∧ Recorded latest.blockNumber (C.hash latest.blockNumber) d d')
      (On fun d' p => ∃ d, Q d p ∧ (d' = d ∨ Recording latest.blockNumber (C.hash latest.blockNumber) d d' ∨
        Recorded latest.blockNumber (C.hash latest.blockNumber) d d')) := by
  unfold recordHead
  refine write_then (R := fun d' p => ∃ d, Q d p ∧ d' = d.metaSet "head_number" latest.blockNumber.repr)
    (fun h hQ => ⟨h.database, hQ, Or.inl rfl⟩) (fun d p hQ => ⟨d, hQ, rfl⟩) ?_
  refine write_then (R := fun d' p => ∃ d, Q d p ∧
      d' = (d.metaSet "head_number" latest.blockNumber.repr).metaSet "head_hash"
        (feltHex (C.hash latest.blockNumber))) ?_ ?_ ?_
  · rintro h ⟨d, hQ, hd⟩
    exact ⟨d, hQ, Or.inr (Or.inl (hd ▸ Recording.number))⟩
  · rintro d' p ⟨d, hQ, rfl⟩
    exact ⟨d, hQ, rfl⟩
  refine lift_then ?_ fun f hf => ?_
  · rintro h ⟨d, hQ, hd⟩
    exact ⟨d, hQ, Or.inr (Or.inl (hd ▸ Recording.hash))⟩
  rw [hlatest.hash] at hf
  cases hf
  refine write_then (R := fun d' p => ∃ d, Q d p ∧
    d' = withHead latest.blockNumber (C.hash latest.blockNumber) d) ?_ ?_ ?_
  · rintro h ⟨d, hQ, hd⟩
    exact ⟨d, hQ, Or.inr (Or.inl (hd ▸ Recording.hash))⟩
  · rintro d' p ⟨d, hQ, rfl⟩
    exact ⟨d, hQ, rfl⟩
  cases finalHeight with
  | none =>
      refine Triple.pure ?_
      rintro h ⟨d, hQ, hd⟩
      exact ⟨d, hQ, Or.inl hd⟩
  | some height =>
      refine (write_triple ?_).relax ?_
      · rintro d' p ⟨d, hQ, rfl⟩
        exact ⟨d, hQ, Or.inr ⟨height, rfl⟩⟩
      · rintro h ⟨d, hQ, hd⟩
        exact ⟨d, hQ, Or.inr (Or.inr (Or.inl hd))⟩

/-! ## The cycle -/

/-- A header that was answered as the latest. -/
def IsLatest (rpc : RpcClient) (header : BlockHeader) : Prop :=
  (∃ t, rpc.getBlock t .latest = .ok header) ∨
    ∃ t data, rpc.getBlockData t .latest = .ok (some data) ∧ data.header = header

theorem acquireHead_triple (htruthful : C.Truthful P cfg chunkSize rpc) :
    Triple (On Q) (acquireHead rpc .latest)
      (fun r h => (C.Describes P r.1 ∧ IsLatest rpc r.1 ∧ Supplied P cfg C r.1.blockNumber r.2) ∧
        On Q h) (On Q) := by
  unfold acquireHead
  refine ask_then (fun _ h => h) ?_
  rintro found ⟨t, ht⟩
  cases found with
  | some data =>
      refine Triple.pure fun _ h => ⟨⟨htruthful.dataHeader _ _ _ ht, Or.inr ⟨t, data, ht, rfl⟩, ?_⟩, h⟩
      rintro data' heq
      cases heq
      exact ⟨htruthful.dataUpdate _ _ _ ht, htruthful.dataEvents _ _ _ ht⟩
  | none =>
      refine ask_then (fun _ h => h) ?_
      rintro header ⟨t', ht'⟩
      refine Triple.pure fun _ h => ⟨⟨htruthful.header _ _ _ ht', Or.inl ⟨t', ht'⟩, ?_⟩, h⟩
      rintro data heq
      cases heq

/-- Everything a cycle has decided and read before it ingests: the reorg, the database
with finality noted, and the head. -/
structure Prepared (C : Chain L) (P : FeltParser) (rpc : RpcClient) (d₀ : Database)
    (reorg : Option Nat) (d₁ : Database) (latest : BlockHeader) : Prop where
  decided : Decided C d₀ reorg
  promoted : Promoted d₀ d₁
  describes : C.Describes P latest
  isLatest : IsLatest rpc latest
  ahead : reorg = none → ∀ f, d₀.cursor = some f → f ≤ latest.blockNumber

/-- Where a cycle that began at `d₀` and `p₀` can be found. -/
inductive CycleState (C : Chain L) (P : FeltParser) (rpc : RpcClient) (cfg : ChainConfig)
    (d₀ : Database) (p₀ : List Nat) : Database → List Nat → Prop
  | polled {d : Database} (h : Promoted d₀ d) : CycleState C P rpc cfg d₀ p₀ d p₀
  | ingesting {reorg : Option Nat} {d₁ d : Database} {latest : BlockHeader} {n : Nat} {p : List Nat}
      (h : Prepared C P rpc d₀ reorg d₁ latest)
      (hing : Ingested C (rolledBack reorg d₁) (unpassed reorg p₀)
        (firstUnseen cfg (rolledBack reorg d₁)) n d p) :
      CycleState C P rpc cfg d₀ p₀ d p
  | recording {reorg : Option Nat} {d₁ d d' : Database} {latest : BlockHeader} {p : List Nat}
      (h : Prepared C P rpc d₀ reorg d₁ latest)
      (hing : Ingested C (rolledBack reorg d₁) (unpassed reorg p₀)
        (firstUnseen cfg (rolledBack reorg d₁))
        (max (firstUnseen cfg (rolledBack reorg d₁)) (latest.blockNumber + 1)) d p)
      (hrec : Recording latest.blockNumber (C.hash latest.blockNumber) d d') :
      CycleState C P rpc cfg d₀ p₀ d' p
  | recorded {reorg : Option Nat} {d₁ d d' : Database} {latest : BlockHeader} {p : List Nat}
      (h : Prepared C P rpc d₀ reorg d₁ latest)
      (hing : Ingested C (rolledBack reorg d₁) (unpassed reorg p₀)
        (firstUnseen cfg (rolledBack reorg d₁))
        (max (firstUnseen cfg (rolledBack reorg d₁)) (latest.blockNumber + 1)) d p)
      (hrec : Recorded latest.blockNumber (C.hash latest.blockNumber) d d') :
      CycleState C P rpc cfg d₀ p₀ d' p

/-- Where a cycle that returns `o` ends. -/
def CycleDone (C : Chain L) (P : FeltParser) (rpc : RpcClient) (cfg : ChainConfig)
    (d₀ : Database) (p₀ : List Nat) (o : CycleOutcome) (d' : Database) (p : List Nat) : Prop :=
  ∃ reorg d₁ d latest, Prepared C P rpc d₀ reorg d₁ latest ∧ o.headNumber = latest.blockNumber ∧
    Ingested C (rolledBack reorg d₁) (unpassed reorg p₀) (firstUnseen cfg (rolledBack reorg d₁))
      (max (firstUnseen cfg (rolledBack reorg d₁)) (latest.blockNumber + 1)) d p ∧
    Recorded latest.blockNumber (C.hash latest.blockNumber) d d'

/-- **A cycle against a chain.** If its rollback leaves rows of the chain, a cycle ends,
or stops, in one of the states listed. -/
theorem runCycle_triple (htruthful : C.Truthful P cfg chunkSize rpc) {d₀ : Database} {p₀ : List Nat}
    (hready : ∀ reorg d₁ latest, Prepared C P rpc d₀ reorg d₁ latest →
      Ready C (rolledBack reorg d₁)) :
    Triple (On (Is d₀ p₀)) (runCycle P rpc cfg chunkSize)
      (fun o => On (CycleDone C P rpc cfg d₀ p₀ o)) (On (CycleState C P rpc cfg d₀ p₀)) := by
  have hstart : ∀ h, On (Is d₀ p₀) h → On (CycleState C P rpc cfg d₀ p₀) h := by
    rintro ⟨d, caches, moment, budget, p⟩ ⟨rfl, rfl⟩
    exact CycleState.polled (Promoted.refl _)
  unfold runCycle runCycleBound
  refine Triple.bind ((acquireHead_triple htruthful).relax hstart) fun r => ?_
  obtain ⟨latest, supplied⟩ := r
  refine Triple.of_and fun hhead => ?_
  obtain ⟨hlatest, hisLatest, hsupplied⟩ := hhead
  simp only
  refine ask_then hstart fun l1 _ => ?_
  -- nothing announced: no early decision, and nothing to check it against
  refine Triple.bind (M := fun _ => On (Is d₀ p₀)) (Triple.pure fun _ h => h) fun found => ?_
  refine Triple.bind (M := fun _ => On (Is d₀ p₀)) (Triple.pure fun _ h => h) fun _ => ?_
  refine Triple.bind ((detectReorg_triple htruthful hlatest).relax hstart) fun reorg => ?_
  refine Triple.of_and fun hdecided => ?_
  have hcheck : Triple (On (Is d₀ p₀)) (checkHead latest reorg)
      (fun _ h => (reorg = none → ∀ f, d₀.cursor = some f → f ≤ latest.blockNumber) ∧
        On (Is d₀ p₀) h) (On (Is d₀ p₀)) := by
    unfold checkHead
    refine readDb_then ?_
    refine ensure_triple.weaken (fun _ h => h) ?_
    rintro _ h ⟨hc, hQ⟩
    refine ⟨?_, hQ⟩
    rintro rfl f hf
    rw [id, hf] at hc
    simpa using hc
  refine Triple.bind (hcheck.relax hstart) fun _ => Triple.of_and fun hahead => ?_
  refine Triple.bind ((pollFinality_triple l1 latest).relax ?_) fun finalHeight => ?_
  · rintro ⟨d, caches, moment, budget, p⟩ ⟨hd, rfl⟩
    exact CycleState.polled hd
  -- the blocks are as at the start, promoted at most
  refine on_fixed ?_
  rintro d₁ p ⟨hpromoted, rfl⟩
  have hprepared : Prepared C P rpc d₀ reorg d₁ latest :=
    ⟨hdecided, hpromoted, hlatest, hisLatest, hahead⟩
  have hpolled : ∀ h, On (Is d₁ p) h → On (CycleState C P rpc cfg d₀ p) h := by
    rintro ⟨d, caches, moment, budget, p⟩ ⟨rfl, rfl⟩
    exact CycleState.polled hpromoted
  refine readDb_then (lift_then hpolled fun latestHash hhash => ?_)
  obtain ⟨f, hf, rfl⟩ := parseFelt_of_normalizeHex hhash
  rw [hlatest.hash] at hf
  cases hf
  refine Triple.bind ((rollBack_triple reorg).relax hpolled) fun _ => ?_
  refine Triple.bind ((ingestUpTo_triple htruthful hlatest hsupplied
    (hready reorg d₁ latest hprepared)).relax ?_) fun ingested => ?_
  · rintro h ⟨n, hing⟩
    exact CycleState.ingesting hprepared hing
  refine Triple.bind ((recordHead_triple hlatest finalHeight _).relax ?_) fun _ => ?_
  · rintro h ⟨d, hing, hd | hrec | hrec⟩
    · show CycleState C P rpc cfg d₀ p h.database h.passed
      rw [hd]
      exact CycleState.ingesting hprepared hing
    · exact CycleState.recording hprepared hing hrec
    · exact CycleState.recorded hprepared hing hrec
  · refine Triple.pure ?_
    rintro h ⟨d, hing, hrec⟩
    exact ⟨reorg, d₁, d, latest, hprepared, rfl, hing, hrec⟩

end

end Strk20.Indexer
