import Strk20.Feed.Framing
import Strk20.Feed.Snapshot

/-!
# Framing of snapshot files (`snapshot.rs`)

The snapshot loop is a twin of the one for epochs and heads with one check
less: it refuses a slot record after the end record, but not another end
record. An accepted payload is the header, the slot lines, and one or more end
lines, of which the last one counts.
-/

namespace Strk20.Feed.Snapshot

open Text Json Result
open Codec (recordType fromStr_eq_ok)

section

variable (P : FeltParser) (J : JsonParser)

/-! ## The loop -/

/-- Line number `n` reads as the slot `slot`. -/
def ReadsSlot (raw : String) (n : Nat) (slot : SnapSlot) : Prop :=
  recordType J raw = some "s" ∧ ∃ v, J.fromStr raw = some v ∧
    feltField P v "k" ("snapshot line " ++ n.repr) = .ok slot.k ∧
    feltField P v "v" ("snapshot line " ++ n.repr) = .ok slot.v ∧
    u64Field v "w" ("snapshot line " ++ n.repr) = .ok slot.w

/-- The line is an end record that declares `c` slots. -/
def Declares (raw : String) (c : Nat) : Prop :=
  recordType J raw = some "end" ∧ ∃ v, J.fromStr raw = some v ∧
    (v.get "slots").bind asU64 = some c

/-- What an accepted line can be, and what it does. -/
theorem parseLine_cases {block n : Nat} {s t : Collected} {raw : String}
    (h : parseLine P J block s n raw = .ok t) :
    (s.footer = none ∧ ∃ slot, ReadsSlot P J raw n slot ∧
      t = { s with slots := s.slots ++ [slot] }) ∨
    ∃ c, Declares J raw c ∧ t = { s with footer := some c } := by
  rw [parseLine] at h
  obtain ⟨v, hv, h⟩ := bind_eq_ok.mp h
  have hv := fromStr_eq_ok.mp hv
  have htype : recordType J raw = (v.get "t").bind asStr := by
    rw [recordType, hv]
    rfl
  simp only at h
  split at h
  · rename_i heq
    obtain ⟨hfooter, h⟩ := ite_throw_eq_ok.mp h
    obtain ⟨key, hkey, h⟩ := bind_eq_ok.mp h
    obtain ⟨value, hvalue, h⟩ := bind_eq_ok.mp h
    obtain ⟨w, hw, h⟩ := bind_eq_ok.mp h
    obtain ⟨_, -, h⟩ := bind_eq_ok.mp h
    exact Or.inl ⟨by simpa using hfooter, ⟨key, value, w⟩,
      ⟨htype.trans heq, v, hv, hkey, hvalue, hw⟩, (pure_eq_ok.mp h).symm⟩
  · split at h
    · rename_i heq
      obtain ⟨c, hc, h⟩ := bind_eq_ok.mp h
      rw [u64Field, orMalformed_eq_ok] at hc
      exact Or.inr ⟨c, ⟨htype.trans heq, v, hv, hc⟩, (pure_eq_ok.mp h).symm⟩
    · cases h

/-- Lines, numbered from `n` on, that read as slots in order. -/
def ReadsSlots (n : Nat) (ls : List String) (slots : List SnapSlot) : Prop :=
  List.Forall₂ (fun l slot => ReadsSlot P J l.1 l.2 slot) (ls.zipIdx n) slots

/-- The lines after the header: slots, then end records. -/
structure Tail (s t : Collected) (n : Nat) (ls middle ends : List String)
    (slots : List SnapSlot) : Prop where
  split : ls = middle ++ ends
  reads : ReadsSlots P J n middle slots
  declares : ∀ l ∈ ends, ∃ c, Declares J l c
  collected : t.slots = s.slots ++ slots
  after : s.footer.isSome → middle = []
  kept : ends = [] → t.footer = s.footer
  last : ∀ l ∈ ends.getLast?, ∃ c, Declares J l c ∧ t.footer = some c

theorem parseLoop_tail {block : Nat} {ls : List String} {n : Nat} {s t : Collected}
    (h : parseLoop P J block s n ls = .ok t) :
    ∃ middle ends slots, Tail P J s t n ls middle ends slots := by
  induction ls generalizing n s with
  | nil =>
      rw [parseLoop, Except.ok.injEq] at h
      subst h
      exact ⟨[], [], [], rfl, List.Forall₂.nil, by simp, (List.append_nil _).symm, fun _ => rfl,
        fun _ => rfl, by simp⟩
  | cons raw ls hrec =>
      rw [parseLoop] at h
      obtain ⟨s₁, hs₁, h⟩ := bind_eq_ok.mp h
      obtain ⟨middle, ends, slots, ih⟩ := hrec h
      rcases parseLine_cases P J hs₁ with ⟨hnone, slot, hslot, rfl⟩ | ⟨c, hc, rfl⟩
      · refine ⟨raw :: middle, ends, slot :: slots, ?_, ?_, ih.declares, ?_, ?_, ih.kept, ih.last⟩
        · rw [ih.split, List.cons_append]
        · rw [ReadsSlots, List.zipIdx_cons]
          exact List.Forall₂.cons hslot ih.reads
        · rw [ih.collected, List.append_assoc, List.singleton_append]
        · intro hsome
          rw [hnone] at hsome
          cases hsome
      · -- once an end record is read, no slot line follows
        have hmiddle := ih.after rfl
        have hslots := ih.reads
        rw [hmiddle] at hslots
        cases hslots
        refine ⟨[], raw :: ends, [], ?_, List.Forall₂.nil, ?_, ih.collected, fun _ => rfl,
          fun hnil => absurd hnil (List.cons_ne_nil _ _), ?_⟩
        · rw [ih.split, hmiddle]
          rfl
        · intro l hl
          rcases List.mem_cons.mp hl with rfl | hl
          · exact ⟨c, hc⟩
          · exact ih.declares l hl
        · intro l hl
          cases ends with
          | nil =>
              rw [List.getLast?_singleton, Option.mem_some_iff] at hl
              subst hl
              exact ⟨c, hc, ih.kept rfl⟩
          | cons e ends =>
              rw [List.getLast?_cons_cons] at hl
              exact ih.last l hl

/-- An accepted payload, as far as the loop goes. -/
structure Accepted (payload : ByteArray) (snap : Snapshot) (text first : String)
    (middle ends : List String) : Prop where
  utf8 : fromUtf8 payload = some text
  split : lines text = first :: (middle ++ ends)
  header : recordType J first = some "hdr"
  reads : ReadsSlots P J 2 middle snap.slots
  declares : ∀ l ∈ ends, ∃ c, Declares J l c
  last : ∃ l ∈ ends.getLast?, Declares J l (slotCount snap.slots)

theorem parse_accepted {payload : ByteArray} {snap : Snapshot} (h : parse P J payload = .ok snap) :
    ∃ text first middle ends, Accepted P J payload snap text first middle ends := by
  rw [parse] at h
  obtain ⟨text, htext, h⟩ := bind_eq_ok.mp h
  obtain ⟨-, h⟩ := ite_throw_eq_ok.mp h
  split at h
  · cases h
  · rename_i first rest hlines
    obtain ⟨hv, hhv, h⟩ := bind_eq_ok.mp h
    obtain ⟨htype, h⟩ := ite_throw_eq_ok.mp h
    obtain ⟨header, -, h⟩ := bind_eq_ok.mp h
    obtain ⟨-, h⟩ := ite_throw_eq_ok.mp h
    obtain ⟨s, hloop, h⟩ := bind_eq_ok.mp h
    obtain ⟨declared, hdeclared, h⟩ := bind_eq_ok.mp h
    obtain ⟨hcount, h⟩ := ite_throw_eq_ok.mp h
    obtain rfl := pure_eq_ok.mp h
    obtain ⟨middle, ends, slots, htail⟩ := parseLoop_tail P J hloop
    have hslots : s.slots = slots := htail.collected
    have hfooter := orMalformed_eq_ok.mp hdeclared
    refine ⟨text, first, middle, ends, orMalformed_eq_ok.mp htext, ?_, ?_, ?_, htail.declares, ?_⟩
    · rw [hlines, htail.split]
    · rw [recordType, fromStr_eq_ok.mp hhv]
      exact not_not.mp htype
    · show ReadsSlots P J 2 middle s.slots
      rw [hslots]
      exact htail.reads
    · cases hlast : ends.getLast? with
      | none =>
          have hnone := htail.kept (List.getLast?_eq_none_iff.mp hlast)
          rw [hfooter] at hnone
          cases hnone
      | some l =>
          obtain ⟨c, hc, hsome⟩ := htail.last l hlast
          rw [hfooter, Option.some.injEq] at hsome
          refine ⟨l, rfl, ?_⟩
          show Declares J l (slotCount s.slots)
          rw [← not_not.mp hcount, hsome]
          exact hc

/-! ## Accepted payloads -/

/-- The line is an end record. -/
def isEnd (raw : String) : Bool := recordType J raw == some "end"

/-- The number of end records of a payload. -/
def endRecords (payload : ByteArray) : Nat :=
  match fromUtf8 payload with
  | some text => (lines text).countP (isEnd J)
  | none => 0

/-- The framing the format asks for: a header, the slots, and an end record that counts them. -/
structure FramedSnapshot (payload : ByteArray) (snap : Snapshot) : Prop where
  framed : ∃ text first middle last, fromUtf8 payload = some text ∧
    lines text = first :: (middle ++ [last]) ∧ recordType J first = some "hdr" ∧
    ReadsSlots P J 2 middle snap.slots ∧ Declares J last snap.slots.length
  ascending : snap.slots.Pairwise fun a b => a.k.val < b.k.val
  nonzero : ∀ s ∈ snap.slots, s.v ≠ 0
  bounded : ∀ s ∈ snap.slots, s.w ≤ snap.header.block

variable {P J}

theorem ReadsSlots.length_eq {n : Nat} {ls : List String} {slots : List SnapSlot}
    (h : ReadsSlots P J n ls slots) : ls.length = slots.length := by
  have hlen := List.Forall₂.length_eq h
  rwa [List.length_zipIdx] at hlen

theorem ReadsSlots.no_end : ∀ {ls : List String} {n : Nat} {slots : List SnapSlot},
    ReadsSlots P J n ls slots → ls.countP (isEnd J) = 0
  | [], n, slots, _ => rfl
  | raw :: ls, n, slots, h => by
      rw [ReadsSlots, List.zipIdx_cons] at h
      cases h with
      | cons hb hrest =>
          have hne : ¬ isEnd J raw = true := by
            rw [isEnd, hb.1]
            decide
          rw [List.countP_cons_of_neg hne]
          exact ReadsSlots.no_end hrest

theorem countP_ends : ∀ {ends : List String}, (∀ l ∈ ends, ∃ c, Declares J l c) →
    ends.countP (isEnd J) = ends.length
  | [], _ => rfl
  | l :: ends, h => by
      obtain ⟨⟨c, hc⟩, hends⟩ := List.forall_mem_cons.mp h
      have hl : isEnd J l = true := by
        rw [isEnd, hc.1]
        decide
      rw [List.countP_cons_of_pos hl, countP_ends hends, List.length_cons]

theorem endRecords_of_lines {payload : ByteArray} {text first : String}
    {middle ends : List String} {slots : List SnapSlot} (htext : fromUtf8 payload = some text)
    (hlines : lines text = first :: (middle ++ ends)) (hfirst : recordType J first = some "hdr")
    (hmiddle : ReadsSlots P J 2 middle slots) (hends : ∀ l ∈ ends, ∃ c, Declares J l c) :
    endRecords J payload = ends.length := by
  have hne : ¬ isEnd J first = true := by
    rw [isEnd, hfirst]
    decide
  rw [endRecords, htext]
  show (lines text).countP _ = _
  rw [hlines, List.countP_cons_of_neg hne, List.countP_append, hmiddle.no_end, countP_ends hends,
    Nat.zero_add]

/-- A payload in memory has fewer than `2 ^ 64` lines. -/
theorem Accepted.slotCount_eq {payload : ByteArray} {snap : Snapshot} {text first : String}
    {middle ends : List String} (h : Accepted P J payload snap text first middle ends)
    (hsize : payload.size < 2 ^ 64) : slotCount snap.slots = snap.slots.length := by
  have hlines := length_lines_le text
  have hbytes := length_le_size_of_fromUtf8 h.utf8
  rw [h.split, List.length_cons, List.length_append, h.reads.length_eq] at hlines
  exact Nat.mod_eq_of_lt (by omega)

theorem SlotsWf.pairwise {block : Nat} {slots : List SnapSlot} (h : SlotsWf block slots) :
    slots.Pairwise fun a b => a.k.val < b.k.val := by
  have : IsTrans SnapSlot fun a b => a.k.val < b.k.val := ⟨fun _ _ _ => Nat.lt_trans⟩
  exact List.isChain_iff_pairwise.mp h.ascending

theorem FramedSnapshot.endRecords_eq {payload : ByteArray} {snap : Snapshot}
    (h : FramedSnapshot P J payload snap) : endRecords J payload = 1 := by
  obtain ⟨text, first, middle, last, htext, hlines, hfirst, hmiddle, hlast⟩ := h.framed
  have hends : ∀ l ∈ [last], ∃ c, Declares J l c := by
    intro l hl
    rw [List.mem_singleton.mp hl]
    exact ⟨_, hlast⟩
  exact endRecords_of_lines htext hlines hfirst hmiddle hends

/-- An accepted payload is framed exactly when it has one end record. -/
theorem framed_iff_endRecords {payload : ByteArray} {snap : Snapshot}
    (hsize : payload.size < 2 ^ 64) (h : parse P J payload = .ok snap) :
    FramedSnapshot P J payload snap ↔ endRecords J payload ≤ 1 := by
  constructor
  · intro hframed
    exact hframed.endRecords_eq.le
  · intro hle
    obtain ⟨text, first, middle, ends, hacc⟩ := parse_accepted P J h
    have hcount := endRecords_of_lines hacc.utf8 hacc.split hacc.header hacc.reads hacc.declares
    obtain ⟨l, hl, hlast⟩ := hacc.last
    have hwf := parse_slotsWf P J h
    have hends : ends = [l] := by
      cases ends with
      | nil => cases hl
      | cons e es =>
          rw [hcount, List.length_cons] at hle
          have hnil : es = [] := List.eq_nil_of_length_eq_zero (by omega)
          subst hnil
          rw [List.getLast?_singleton, Option.mem_some_iff] at hl
          rw [hl]
    rw [hacc.slotCount_eq hsize] at hlast
    exact ⟨⟨text, first, middle, l, hacc.utf8, hends ▸ hacc.split, hacc.header, hacc.reads, hlast⟩,
      hwf.pairwise, hwf.nonzero, hwf.bounded⟩

variable (P J) in
/-- **Snapshot files.** What the encoder writes is read back; a payload the parser accepts has the
framing of the format if and only if it holds no second end record. -/
theorem snapshot_framing :
    (∀ s, SnapshotWf s → parse P J (encode s) = .ok s) ∧
    ∀ payload : ByteArray, payload.size < 2 ^ 64 → ∀ snap, parse P J payload = .ok snap →
      (FramedSnapshot P J payload snap ↔ endRecords J payload ≤ 1) :=
  ⟨fun _ => parse_encode P J, fun _ hsize _ => framed_iff_endRecords hsize⟩

/-! ## A second end record -/

/-- The encoding of a snapshot with one more end record, declaring `c` slots, before its own. -/
def withEarlyEnd (s : Snapshot) (c : Nat) : ByteArray :=
  intoBytes (unlines (encodeHeader s.header ::
    (s.slots.map encodeSlot ++ [(endRecord c).compact, encodeEnd s.slots])))

theorem plainLine_withEarlyEnd {s : Snapshot} {c : Nat} (h : SnapshotWf s) (hc : c < 2 ^ 64) :
    ∀ l ∈ s.slots.map encodeSlot ++ [(endRecord c).compact, encodeEnd s.slots], PlainLine l := by
  intro l hl
  rcases List.mem_append.mp hl with hl | hl
  · exact plainLine_slots h l hl
  · rw [List.mem_pair] at hl
    rcases hl with rfl | rfl
    · exact plainLine_compact (plain_endRecord hc)
    · rw [encodeEnd_eq]
      exact plainLine_compact (plain_endRecord (slotCount_lt s.slots))

/-- Whatever the first of two end records declares, the last one decides. -/
theorem parse_withEarlyEnd {s : Snapshot} {c : Nat} (h : SnapshotWf s) (hc : c < 2 ^ 64) :
    parse P J (withEarlyEnd s c) = .ok s := by
  apply parse_of_loop P J h (plainLine_withEarlyEnd h hc)
  rw [parseLoop_slots P J h.block s.slots 2 rfl (by simpa using h.slots), parseLoop,
    parseLine_endRecord P J hc]
  show parseLoop P J s.header.block ⟨[] ++ s.slots, some c⟩ _ [encodeEnd s.slots] = _
  rw [parseLoop, encodeEnd_eq, parseLine_endRecord P J (slotCount_lt s.slots)]
  rfl

theorem declares_endRecord {c : Nat} (hc : c < 2 ^ 64) : Declares J (endRecord c).compact c := by
  have hread := J.fromStr_compact _ (readable_endRecord hc)
  refine ⟨?_, endRecord c, hread, ?_⟩
  · rw [recordType, hread]
    rfl
  · show (Json.num c).asU64 = some c
    rw [asU64, if_pos hc]

theorem endRecords_withEarlyEnd {s : Snapshot} {c : Nat} (h : SnapshotWf s) (hc : c < 2 ^ 64)
    (hslots : s.slots = []) : endRecords J (withEarlyEnd s c) = 2 := by
  have hheader : recordType J (encodeHeader s.header) = some "hdr" := by
    rw [recordType, ← compact_headerJson, J.fromStr_compact _ (readable_headerJson h)]
    rfl
  have hplain : ∀ l ∈ encodeHeader s.header ::
      (s.slots.map encodeSlot ++ [(endRecord c).compact, encodeEnd s.slots]), PlainLine l := by
    refine List.forall_mem_cons.mpr ⟨?_, plainLine_withEarlyEnd h hc⟩
    rw [← compact_headerJson]
    exact plainLine_compact (plain_headerJson h)
  have hlines := lines_unlines hplain
  rw [hslots] at hlines
  have hreads : ReadsSlots hexParser J 2 [] [] := List.Forall₂.nil
  have htext : fromUtf8 (withEarlyEnd s c) = some (unlines (encodeHeader s.header ::
      ([] ++ [(endRecord c).compact, encodeEnd []]))) := by
    rw [withEarlyEnd, fromUtf8_intoBytes, hslots]
    rfl
  refine endRecords_of_lines htext hlines hheader hreads ?_
  · intro l hl
    rcases List.mem_pair.mp hl with rfl | rfl
    · exact ⟨c, declares_endRecord hc⟩
    · rw [encodeEnd_eq]
      exact ⟨_, declares_endRecord (slotCount_lt [])⟩

end

/-- A snapshot of an empty pool. -/
def emptySnapshot : Snapshot :=
  ⟨⟨SNAPSHOT_VERSION, KIND_SNAPSHOT, "SN_MAIN", 9, 0, 9, "00", 0, 8⟩, []⟩

theorem emptySnapshot_wf : SnapshotWf emptySnapshot :=
  ⟨rfl, rfl, plainStr_iff.mpr (by decide), plainStr_iff.mpr (by decide), by decide, by decide,
    ⟨by simp [emptySnapshot], by simp [emptySnapshot], List.IsChain.nil⟩⟩

/-- A payload with the end records `7` and `0` is accepted, as a snapshot without slots. -/
theorem second_end_accepted :
    parse hexParser Json.parser (withEarlyEnd emptySnapshot 7) = .ok emptySnapshot ∧
      ¬ FramedSnapshot hexParser Json.parser (withEarlyEnd emptySnapshot 7) emptySnapshot := by
  refine ⟨parse_withEarlyEnd emptySnapshot_wf (by decide), fun h => ?_⟩
  have htwo := endRecords_withEarlyEnd (J := Json.parser) emptySnapshot_wf (c := 7) (by decide) rfl
  have hone := h.endRecords_eq
  omega

/-- A snapshot of two slots. -/
def twoSlotSnapshot : Snapshot :=
  ⟨emptySnapshot.header, [⟨2, 7, 5⟩, ⟨3, 9, 6⟩]⟩

theorem twoSlotSnapshot_wf : SnapshotWf twoSlotSnapshot :=
  ⟨rfl, rfl, emptySnapshot_wf.chainId, emptySnapshot_wf.epochHash, by decide, by decide,
    ⟨by decide, by decide, List.isChain_pair.mpr (by decide)⟩⟩

theorem twoSlotSnapshot_size : (encode twoSlotSnapshot).size < 2 ^ 64 := by decide +kernel

theorem snapshot_framing_two :
    parse hexParser Json.parser (encode twoSlotSnapshot) = .ok twoSlotSnapshot ∧
      (FramedSnapshot hexParser Json.parser (encode twoSlotSnapshot) twoSlotSnapshot ↔
        endRecords Json.parser (encode twoSlotSnapshot) ≤ 1) := by
  have h := snapshot_framing hexParser Json.parser
  have hparse := h.1 twoSlotSnapshot twoSlotSnapshot_wf
  exact ⟨hparse, h.2 _ twoSlotSnapshot_size _ hparse⟩

end Strk20.Feed.Snapshot
