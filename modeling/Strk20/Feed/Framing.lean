import Strk20.Feed.CodecParsed

/-!
# Framing of epoch and head files (`parse_lines`)

The line loop decides acceptance one record at a time. Its run after the first
line keeps one invariant: until an end record is read, every line was a block
record, and the blocks collected are these lines in order; once it is read no
line can follow. With the checks made after the loop this fixes the shape of
every accepted payload, and of the values the parsers return.
-/

namespace Strk20.Feed.Codec

open Text Json Result

section

variable (P : FeltParser) (J : JsonParser)

/-! ## The loop -/

/-- Lines, numbered from `n` on, that read as blocks in order. -/
def ReadsBlocks (n : Nat) (ls : List String) (bs : List BlockLine) : Prop :=
  List.Forall₂ (fun l b => ReadsBlk P J l.1 l.2 b) (ls.zipIdx n) bs

variable {P J} in
theorem ReadsBlocks.cons {n : Nat} {raw : String} {ls : List String} {b : BlockLine}
    {bs : List BlockLine} (hb : ReadsBlk P J raw n b) (h : ReadsBlocks P J (n + 1) ls bs) :
    ReadsBlocks P J n (raw :: ls) (b :: bs) := by
  rw [ReadsBlocks, List.zipIdx_cons]
  exact List.Forall₂.cons hb h

/-- Nothing may follow the end record. -/
theorem parseLoop_after_end {kind : String} {ls : List String} {s s' : Collected} {n : Nat}
    (h : parseLoop P J kind s n ls = .ok s') (hn : 1 < n) (hs : s.footer.isSome) :
    ls = [] ∧ s' = s := by
  cases ls with
  | nil =>
      rw [parseLoop, Except.ok.injEq] at h
      exact ⟨rfl, h.symm⟩
  | cons raw ls =>
      rw [parseLoop] at h
      obtain ⟨t, ht, -⟩ := bind_eq_ok.mp h
      rcases parseLine_cases P J ht with ⟨hone, -⟩ | ⟨hnone, -⟩ | ⟨hnone, -⟩
      · omega
      · rw [hnone] at hs
        cases hs
      · rw [hnone] at hs
        cases hs

/-- The loop after the first line: block lines, then at most one end line. -/
theorem parseLoop_frame {kind : String} : ∀ {ls : List String} {s s' : Collected} {n : Nat},
    parseLoop P J kind s n ls = .ok s' → 1 < n → s.footer = none →
      ∃ middle bs, ReadsBlocks P J n middle bs ∧ s'.header = s.header ∧
        s'.blocks = s.blocks ++ bs ∧
        ((ls = middle ∧ s'.footer = none) ∨
          ∃ last f, ls = middle ++ [last] ∧ ReadsEnd P J last (n + middle.length) f ∧
            s'.footer = some f)
  | [], s, s', n, h, hn, hs => by
      rw [parseLoop, Except.ok.injEq] at h
      subst h
      exact ⟨[], [], List.Forall₂.nil, rfl, (List.append_nil _).symm, Or.inl ⟨rfl, hs⟩⟩
  | raw :: ls, s, s', n, h, hn, hs => by
      rw [parseLoop] at h
      obtain ⟨t, ht, h⟩ := bind_eq_ok.mp h
      rcases parseLine_cases P J ht with ⟨hone, -⟩ | ⟨-, b, hb, rfl⟩ | ⟨-, f, hf, rfl⟩
      · omega
      · obtain ⟨middle, bs, hbs, hheader, hblocks, hrest⟩ :=
          parseLoop_frame h (Nat.lt_succ_of_lt hn) hs
        refine ⟨raw :: middle, b :: bs, hbs.cons hb, hheader, ?_, ?_⟩
        · rw [hblocks, List.append_assoc, List.singleton_append]
        · rcases hrest with ⟨rfl, hfooter⟩ | ⟨last, f, rfl, hf, hfooter⟩
          · exact Or.inl ⟨rfl, hfooter⟩
          · refine Or.inr ⟨last, f, rfl, ?_, hfooter⟩
            rw [List.length_cons, show n + (middle.length + 1) = n + 1 + middle.length by omega]
            exact hf
      · obtain ⟨rfl, rfl⟩ := parseLoop_after_end P J h (Nat.lt_succ_of_lt hn) rfl
        exact ⟨[], [], List.Forall₂.nil, rfl, (List.append_nil _).symm,
          Or.inr ⟨raw, f, rfl, hf, rfl⟩⟩

/-- The lines of an accepted payload: the header, the blocks, the end. -/
structure Framed (kind : String) (ls : List String) (v : Json) (bs : List BlockLine) (f : Footer)
    (first : String) (middle : List String) (last : String) : Prop where
  lines : ls = first :: (middle ++ [last])
  header : ReadsHdr J kind first v
  blocks : ReadsBlocks P J 2 middle bs
  footer : ReadsEnd P J last (middle.length + 2) f

/-- The whole loop. A header is only read on line 1, so a payload that has one has it there. -/
theorem parseLoop_framed {kind : String} {ls : List String} {s : Collected} {v : Json} {f : Footer}
    (h : parseLoop P J kind ⟨none, [], none⟩ 1 ls = .ok s) (hv : s.header = some v)
    (hf : s.footer = some f) :
    ∃ first middle last, Framed P J kind ls v s.blocks f first middle last := by
  cases ls with
  | nil =>
      rw [parseLoop, Except.ok.injEq] at h
      rw [← h] at hv
      cases hv
  | cons raw ls =>
      rw [parseLoop] at h
      obtain ⟨t, ht, h⟩ := bind_eq_ok.mp h
      rcases parseLine_cases P J ht with ⟨-, w, hw, rfl⟩ | ⟨-, b, hb, rfl⟩ | ⟨-, g, hg, rfl⟩
      · obtain ⟨middle, bs, hbs, hheader, hblocks, hrest⟩ :=
          parseLoop_frame P J h Nat.one_lt_two rfl
        rw [hv, Option.some.injEq] at hheader
        subst hheader
        rcases hrest with ⟨-, hnone⟩ | ⟨last, g, rfl, hg, hsome⟩
        · rw [hf] at hnone
          cases hnone
        · rw [hf, Option.some.injEq] at hsome
          subst hsome
          rw [List.nil_append] at hblocks
          rw [Nat.add_comm] at hg
          exact ⟨raw, middle, last, rfl, hw, hblocks ▸ hbs, hg⟩
      · obtain ⟨middle, bs, -, hheader, -, -⟩ := parseLoop_frame P J h Nat.one_lt_two rfl
        rw [hv] at hheader
        cases hheader
      · obtain ⟨-, rfl⟩ := parseLoop_after_end P J h Nat.one_lt_two rfl
        cases hv

/-- What every accepted payload of a kind is. -/
theorem parseLines_framed {payload : ByteArray} {kind : String} {parsed : Parsed}
    (h : parseLines P J payload kind = .ok parsed) :
    ∃ text first middle last, fromUtf8 payload = some text ∧
      Framed P J kind (lines text) parsed.header parsed.blocks parsed.footer first middle last := by
  rw [parseLines] at h
  obtain ⟨text, htext, h⟩ := bind_eq_ok.mp h
  obtain ⟨-, h⟩ := ite_throw_eq_ok.mp h
  obtain ⟨s, hloop, h⟩ := bind_eq_ok.mp h
  obtain ⟨header, hheader, h⟩ := bind_eq_ok.mp h
  obtain ⟨footer, hfooter, h⟩ := bind_eq_ok.mp h
  obtain ⟨-, h⟩ := ite_throw_eq_ok.mp h
  obtain ⟨-, h⟩ := ite_throw_eq_ok.mp h
  obtain ⟨_, -, h⟩ := bind_eq_ok.mp h
  obtain ⟨_, -, h⟩ := bind_eq_ok.mp h
  obtain rfl := pure_eq_ok.mp h
  obtain ⟨first, middle, last, hframed⟩ := parseLoop_framed P J hloop
    (orMalformed_eq_ok.mp hheader) (orMalformed_eq_ok.mp hfooter)
  exact ⟨text, first, middle, last, orMalformed_eq_ok.mp htext, hframed⟩

/-! ## Counts

A block line takes more characters than it has diffs, or events, so the `u64`
counts of a payload that fits in memory are the true ones. -/

theorem getArray_length_lt {v : Json} {k : String} {line : Nat} {items : List Json}
    (h : getArray v k line = .ok items) : items.length < v.weight := by
  rw [getArray, orMalformed_eq_ok] at h
  obtain ⟨w, hw, hitems⟩ := Option.bind_eq_some_iff.mp h
  exact (length_lt_weight hitems).trans (weight_get hw)

theorem parseBlk_length {v : Json} {n : Nat} {b : BlockLine} (h : parseBlk P v n = .ok b) :
    b.diffs.length < v.weight ∧ b.events.length < v.weight := by
  rw [parseBlk] at h
  obtain ⟨ds, hds, h⟩ := bind_eq_ok.mp h
  obtain ⟨diffs, hdiffs, h⟩ := bind_eq_ok.mp h
  obtain ⟨es, hes, h⟩ := bind_eq_ok.mp h
  obtain ⟨events, hevents, h⟩ := bind_eq_ok.mp h
  obtain ⟨rc, -, h⟩ := bind_eq_ok.mp h
  obtain ⟨fin, -, h⟩ := bind_eq_ok.mp h
  obtain ⟨number, -, h⟩ := bind_eq_ok.mp h
  obtain ⟨hash, -, h⟩ := bind_eq_ok.mp h
  obtain ⟨parent, -, h⟩ := bind_eq_ok.mp h
  obtain ⟨timestamp, -, h⟩ := bind_eq_ok.mp h
  obtain rfl := pure_eq_ok.mp h
  show diffs.length < v.weight ∧ events.length < v.weight
  rw [length_of_mapM_ok hdiffs, length_of_mapM_ok hevents]
  exact ⟨getArray_length_lt hds, getArray_length_lt hes⟩

variable {P J}

theorem ReadsBlk.length_le (hJ : J.Frugal) {raw : String} {n : Nat} {b : BlockLine}
    (h : ReadsBlk P J raw n b) :
    b.diffs.length < raw.toList.length ∧ b.events.length < raw.toList.length := by
  obtain ⟨-, v, hv, hb⟩ := h
  have hle := hJ raw v hv
  obtain ⟨hd, he⟩ := parseBlk_length P hb
  exact ⟨by omega, by omega⟩

/-- What a block line bounds, all of them together bound. -/
theorem ReadsBlocks.sum_le {f : BlockLine → Nat}
    (hf : ∀ raw n b, ReadsBlk P J raw n b → f b ≤ raw.toList.length) :
    ∀ {ls : List String} {n : Nat} {bs : List BlockLine}, ReadsBlocks P J n ls bs →
      (bs.map f).sum ≤ (ls.map fun l => l.toList.length).sum
  | [], n, bs, h => by
      cases h
      exact Nat.le_refl _
  | raw :: ls, n, bs, h => by
      rw [ReadsBlocks, List.zipIdx_cons] at h
      cases h with
      | @cons _ b _ bs hb hrest =>
          have ih := ReadsBlocks.sum_le hf hrest
          have hle := hf raw n b hb
          simp only [List.map_cons, List.sum_cons]
          omega

/-- The counts of a payload that fits in memory do not wrap. -/
theorem Framed.sum_lt {kind : String} {payload : ByteArray} {text : String} {v : Json}
    {bs : List BlockLine} {g : Footer} {first last : String} {middle : List String}
    (h : Framed P J kind (Text.lines text) v bs g first middle last)
    (htext : fromUtf8 payload = some text) (hsize : payload.size < 2 ^ 64) {f : BlockLine → Nat}
    (hf : ∀ raw n b, ReadsBlk P J raw n b → f b ≤ raw.toList.length) :
    (bs.map f).sum < 2 ^ 64 := by
  have hblocks := h.blocks.sum_le hf
  have hlines := sum_length_lines text
  have hbytes := length_le_size_of_fromUtf8 htext
  rw [h.lines] at hlines
  simp only [List.map_cons, List.sum_cons, List.map_append, List.sum_append] at hlines
  omega

/-! ## Accepted payloads -/

theorem IsChain.ascending {bs : List BlockLine} (h : bs.IsChain Linked) :
    bs.Pairwise fun a b => a.number < b.number := by
  have : IsTrans BlockLine fun a b => a.number < b.number := ⟨fun _ _ _ => Nat.lt_trans⟩
  exact List.isChain_iff_pairwise.mp (h.imp fun _ _ hab => hab.1)

/-- In an ascending list a number and its successor stand next to each other. -/
theorem IsChain.parent_eq : ∀ {bs : List BlockLine}, bs.IsChain Linked →
    ∀ a ∈ bs, ∀ b ∈ bs, b.number = a.number + 1 → b.parent = a.hash
  | x :: rest, h, a, ha, b, hb, hnum => by
      have hlt := (List.pairwise_cons.mp (IsChain.ascending h)).1
      rcases List.mem_cons.mp hb with rfl | hbr
      · rcases List.mem_cons.mp ha with rfl | har
        · omega
        · have := hlt a har
          omega
      · rcases List.mem_cons.mp ha with rfl | har
        · cases rest with
          | nil => cases hbr
          | cons y rest =>
              obtain ⟨hlink, htail⟩ := List.isChain_cons_cons.mp h
              rcases List.mem_cons.mp hbr with rfl | hbt
              · exact hlink.2 hnum
              · have hxy := hlink.1
                have hyb := (List.pairwise_cons.mp (IsChain.ascending htail)).1 b hbt
                omega
        · exact IsChain.parent_eq h.tail a har b hbr hnum

theorem BlockLine.Sorted.pairwise {b : BlockLine} (h : BlockLine.Sorted b) :
    (b.diffs.Pairwise fun x y => x.1.val < y.1.val) ∧
      b.events.Pairwise fun x y => x.eventIndex < y.eventIndex := by
  have : IsTrans (Felt × Felt) fun x y => x.1.val < y.1.val := ⟨fun _ _ _ => Nat.lt_trans⟩
  have : IsTrans EventLine fun x y => x.eventIndex < y.eventIndex := ⟨fun _ _ _ => Nat.lt_trans⟩
  exact ⟨List.isChain_iff_pairwise.mp h.diffs, List.isChain_iff_pairwise.mp h.events⟩

theorem ReadsBlocks.types : ∀ {ls : List String} {n : Nat} {bs : List BlockLine},
    ReadsBlocks P J n ls bs → ls.map (recordType J) = List.replicate bs.length (some "blk")
  | [], n, bs, h => by
      cases h
      rfl
  | raw :: ls, n, bs, h => by
      rw [ReadsBlocks, List.zipIdx_cons] at h
      cases h with
      | cons hb hrest =>
          rw [List.map_cons, hb.1, ReadsBlocks.types hrest]
          rfl

theorem Framed.types {kind : String} {ls : List String} {v : Json} {bs : List BlockLine}
    {f : Footer} {first last : String} {middle : List String}
    (h : Framed P J kind ls v bs f first middle last) :
    ls.map (recordType J) =
      some "hdr" :: (List.replicate bs.length (some "blk") ++ [some "end"]) := by
  rw [h.lines, List.map_cons, List.map_append, h.header.1, h.blocks.types, List.map_cons,
    h.footer.1]
  rfl

variable (P J)

/-- A payload of some kind that carries `bs` and `f`: the records it is made of, and what
holds of the values read from them. -/
structure FramedFile (kind : String) (payload : ByteArray) (bs : List BlockLine) (f : Footer) :
    Prop where
  framed : ∃ text v first middle last, fromUtf8 payload = some text ∧
    Framed P J kind (Text.lines text) v bs f first middle last ∧
    (Text.lines text).map (recordType J) =
      some "hdr" :: (List.replicate bs.length (some "blk") ++ [some "end"])
  ascending : bs.Pairwise fun a b => a.number < b.number
  diffs : ∀ b ∈ bs, b.diffs.Pairwise fun x y => x.1.val < y.1.val
  events : ∀ b ∈ bs, b.events.Pairwise fun x y => x.eventIndex < y.eventIndex
  blockCount : f.blocks = bs.length
  diffCount : f.diffs = (bs.map fun b => b.diffs.length).sum
  eventCount : f.events = (bs.map fun b => b.events.length).sum
  linked : ∀ a ∈ bs, ∀ b ∈ bs, b.number = a.number + 1 → b.parent = a.hash

variable {P J}

theorem parseLines_framedFile (hJ : J.Frugal) {payload : ByteArray} {kind : String}
    {parsed : Parsed} (hsize : payload.size < 2 ^ 64)
    (h : parseLines P J payload kind = .ok parsed) :
    FramedFile P J kind payload parsed.blocks parsed.footer := by
  obtain ⟨text, first, middle, last, htext, hframed⟩ := parseLines_framed P J h
  obtain ⟨hwf, hcounts⟩ := parseLines_wf P J h
  have hone := hframed.sum_lt htext hsize (f := fun _ => 1) fun raw n b hb => by
    have := (hb.length_le hJ).1
    omega
  have hdiffs := hframed.sum_lt htext hsize (f := fun b => b.diffs.length)
    fun raw n b hb => (hb.length_le hJ).1.le
  have hevents := hframed.sum_lt htext hsize (f := fun b => b.events.length)
    fun raw n b hb => (hb.length_le hJ).2.le
  refine ⟨⟨text, parsed.header, first, middle, last, htext, hframed, hframed.types⟩,
    IsChain.ascending hwf.linked, fun b hb => (hwf.sorted b hb).pairwise.1,
    fun b hb => (hwf.sorted b hb).pairwise.2, ?_, ?_, ?_, IsChain.parent_eq hwf.linked⟩
  · rw [hcounts.blocks]
    exact Nat.mod_eq_of_lt (by simpa using hone)
  · rw [hcounts.diffs]
    exact Nat.mod_eq_of_lt hdiffs
  · rw [hcounts.events]
    exact Nat.mod_eq_of_lt hevents

variable (P J) in
/-- **Framing.** Every byte string `parse_epoch` or `parse_head` accepts is a header line, the
block lines and an end line, with the order, links and counts the format asks for. The parser of
the lines is one that spends a character on every value, and a payload is a slice in memory. -/
theorem accepted_framed (hJ : J.Frugal) (payload : ByteArray) (hsize : payload.size < 2 ^ 64) :
    (∀ e, parseEpoch P J payload = .ok e →
      FramedFile P J KIND_EPOCH payload e.blocks e.footer) ∧
    ∀ h, parseHead P J payload = .ok h →
      FramedFile P J KIND_HEAD payload h.blocks h.footer := by
  constructor
  · intro e he
    obtain ⟨parsed, hparsed, hblocks, hfooter⟩ := parseEpoch_lines P J he
    rw [hblocks, hfooter]
    exact parseLines_framedFile hJ hsize hparsed
  · intro h hh
    obtain ⟨parsed, hparsed, hblocks, hfooter⟩ := parseHead_lines P J hh
    rw [hblocks, hfooter]
    exact parseLines_framedFile hJ hsize hparsed

/-! ## The codec -/

/-- A payload `encode_epoch` can write: the numbers fit `u64` and the chain id needs no
escapes. -/
def CanonicalEpoch (payload : ByteArray) : Prop :=
  ∃ e : Epoch, EpochHeader.Bounded e.header ∧ (∀ b ∈ e.blocks, b.Bounded) ∧
    Footer.Bounded e.footer ∧ encodeEpoch e = some payload

/-- A payload `encode_head` can write. -/
def CanonicalHead (payload : ByteArray) : Prop :=
  ∃ h : Head, HeadHeader.Bounded h.header ∧ (∀ b ∈ h.blocks, b.Bounded) ∧
    Footer.Bounded h.footer ∧ encodeHead h = some payload

theorem encodeEpoch_bytes {e : Epoch} {payload : ByteArray} (h : encodeEpoch e = some payload) :
    payload = epochBytes e := by
  rw [encodeEpoch] at h
  split at h
  · exact (Option.some.inj h).symm
  · cases h

theorem encodeHead_bytes {h : Head} {payload : ByteArray} (henc : encodeHead h = some payload) :
    payload = headBytes h := by
  rw [encodeHead] at henc
  split at henc
  · exact (Option.some.inj henc).symm
  · cases henc

/-- Reading back what was written: an accepted encoding is of the value read. -/
theorem encodeEpoch_of_parseEpoch {payload : ByteArray} {e : Epoch} (hc : CanonicalEpoch payload)
    (h : parseEpoch P J payload = .ok e) : encodeEpoch e = some payload := by
  obtain ⟨e₀, hheader, hbounded, hfooter, henc⟩ := hc
  have hbytes := encodeEpoch_bytes henc
  rw [hbytes] at h
  obtain ⟨parsed, hparsed, -, -⟩ := parseEpoch_lines P J h
  have hcounts := (parseLines_wf P J hparsed).2
  rw [epochBytes, ← compact_epochHeaderJson] at hparsed
  rw [parseLines_looped P J (readable_epochHeaderJson hheader) rfl rfl rfl hbounded hfooter hparsed]
    at hcounts
  rw [parseEpoch_encoded P J hheader hbounded hcounts] at h
  obtain ⟨_, -, h⟩ := bind_eq_ok.mp h
  obtain ⟨_, -, h⟩ := bind_eq_ok.mp h
  obtain ⟨_, -, h⟩ := bind_eq_ok.mp h
  obtain rfl := pure_eq_ok.mp h
  exact henc

theorem encodeHead_of_parseHead {payload : ByteArray} {h : Head} (hc : CanonicalHead payload)
    (hok : parseHead P J payload = .ok h) : encodeHead h = some payload := by
  obtain ⟨h₀, hheader, hbounded, hfooter, henc⟩ := hc
  have hbytes := encodeHead_bytes henc
  rw [hbytes] at hok
  have htail := getU64_of 1 (v := headHeaderJson h₀.header) (k := "tail_from") rfl hheader.tailFrom
  have hhead := getU64_of 1 (v := headHeaderJson h₀.header) (k := "head") rfl hheader.head
  have hhash := getFelt_of P 1 (v := headHeaderJson h₀.header) (k := "head_hash") rfl
  have hl1 := getU64_of 1 (v := headHeaderJson h₀.header) (k := "l1_accepted") rfl
    hheader.l1Accepted
  rw [parseHead] at hok
  obtain ⟨parsed, hparsed, hok⟩ := bind_eq_ok.mp hok
  rw [headBytes, ← compact_headHeaderJson] at hparsed
  rw [parseLines_looped P J (readable_headHeaderJson hheader) rfl rfl rfl hbounded hfooter hparsed]
    at hok
  rw [htail, hhead, hhash, hl1] at hok
  simp only [bind, Except.bind] at hok
  obtain ⟨_, -, hok⟩ := bind_eq_ok.mp hok
  obtain rfl := pure_eq_ok.mp hok
  exact henc

/-- The kind is read from line 1, and there is only one. -/
theorem parsed_kind_unique {payload : ByteArray} {kind kind' : String} {parsed parsed' : Parsed}
    (h : parseLines P J payload kind = .ok parsed)
    (h' : parseLines P J payload kind' = .ok parsed') : kind = kind' := by
  obtain ⟨text, first, middle, last, htext, hframed⟩ := parseLines_framed P J h
  obtain ⟨text', first', middle', last', htext', hframed'⟩ := parseLines_framed P J h'
  rw [htext, Option.some.injEq] at htext'
  subst htext'
  have hfirst := hframed.lines.symm.trans hframed'.lines
  rw [List.cons.injEq] at hfirst
  obtain ⟨rfl, -⟩ := hfirst
  obtain ⟨-, hv, hkind⟩ := hframed.header
  obtain ⟨-, hv', hkind'⟩ := hframed'.header
  rw [hv, Option.some.injEq] at hv'
  rw [← hv', hkind, Option.some.injEq] at hkind'
  exact hkind'

variable (P J) in
/-- **Round trip.** Encoding and decoding a well-formed epoch or head gives it back, so the
encodings are injective; a canonical payload that is accepted is the encoding of what was read;
and the two parsers accept no payload in common. -/
theorem codec_round_trip :
    (∀ e, EpochWf e → ∃ bytes, encodeEpoch e = some bytes ∧ parseEpoch P J bytes = .ok e) ∧
    (∀ h, HeadWf h → ∃ bytes, encodeHead h = some bytes ∧ parseHead P J bytes = .ok h) ∧
    (∀ e e', EpochWf e → EpochWf e' → encodeEpoch e = encodeEpoch e' → e = e') ∧
    (∀ h h', HeadWf h → HeadWf h' → encodeHead h = encodeHead h' → h = h') ∧
    (∀ payload e, CanonicalEpoch payload → parseEpoch P J payload = .ok e →
      encodeEpoch e = some payload) ∧
    (∀ payload h, CanonicalHead payload → parseHead P J payload = .ok h →
      encodeHead h = some payload) ∧
    ∀ payload e h, parseEpoch P J payload = .ok e → parseHead P J payload ≠ .ok h := by
  have hepoch : ∀ e, EpochWf e → ∃ bytes, encodeEpoch e = some bytes ∧
      parseEpoch P J bytes = .ok e :=
    fun e he => ⟨epochBytes e, encodeEpoch_eq_some he.blocks, parseEpoch_epochBytes P J he⟩
  have hhead : ∀ h, HeadWf h → ∃ bytes, encodeHead h = some bytes ∧ parseHead P J bytes = .ok h :=
    fun h hh => ⟨headBytes h, encodeHead_eq_some hh.blocks, parseHead_headBytes P J hh⟩
  refine ⟨hepoch, hhead, ?_, ?_, fun _ _ => encodeEpoch_of_parseEpoch,
    fun _ _ => encodeHead_of_parseHead, ?_⟩
  · intro e e' he he' heq
    obtain ⟨bytes, henc, hparse⟩ := hepoch e he
    obtain ⟨bytes', henc', hparse'⟩ := hepoch e' he'
    rw [henc, henc', Option.some.injEq] at heq
    rw [heq, hparse', Except.ok.injEq] at hparse
    exact hparse.symm
  · intro h h' hh hh' heq
    obtain ⟨bytes, henc, hparse⟩ := hhead h hh
    obtain ⟨bytes', henc', hparse'⟩ := hhead h' hh'
    rw [henc, henc', Option.some.injEq] at heq
    rw [heq, hparse', Except.ok.injEq] at hparse
    exact hparse.symm
  · intro payload e h he hh
    obtain ⟨parsed, hparsed, -, -⟩ := parseEpoch_lines P J he
    obtain ⟨parsed', hparsed', -, -⟩ := parseHead_lines P J hh
    exact absurd (parsed_kind_unique hparsed hparsed') (by decide)

end

/-! ## A small epoch -/

/-- Two adjacent blocks, the first with a write and an event. -/
def sampleEpoch : Epoch :=
  ⟨⟨"SN_MAIN", 9, 0, 7, 9, none⟩,
    [⟨7, 1, 0, 100, [(3, 5)], [⟨0, 2, 4, [6], []⟩], none, none⟩,
      ⟨8, 2, 1, 110, [], [], some 8, none⟩],
    ⟨2, 1, 1, 8⟩⟩

theorem sampleEpoch_wf : EpochWf sampleEpoch := by
  constructor
  · exact ⟨plainStr_iff.mpr (by decide), by decide, by decide, by decide⟩
  · constructor
    · intro b hb
      simp only [sampleEpoch, List.mem_cons, List.not_mem_nil, or_false] at hb
      rcases hb with rfl | rfl
      · refine ⟨by decide, by decide, fun e he => ?_⟩
        rw [List.mem_singleton.mp he]
        exact ⟨by decide, by decide⟩
      · exact ⟨by decide, by decide, fun e he => nomatch he⟩
    · exact (checkLinks_ok_iff _).mp (by rfl)
    · exact (checkSorted_ok_iff _).mp (by rfl)
  · exact (checkEpochBlocks_ok_iff _ _ _).mp (by rfl)
  · exact ⟨by decide, by decide, by decide⟩

theorem sampleEpoch_size : (epochBytes sampleEpoch).size < 2 ^ 64 := by decide +kernel

theorem accepted_framed_sample :
    parseEpoch hexParser Json.parser (epochBytes sampleEpoch) = .ok sampleEpoch ∧
      FramedFile hexParser Json.parser KIND_EPOCH (epochBytes sampleEpoch) sampleEpoch.blocks
        sampleEpoch.footer := by
  have hparse := parseEpoch_epochBytes hexParser Json.parser sampleEpoch_wf
  exact ⟨hparse, (accepted_framed hexParser Json.parser Json.parser_frugal _
    sampleEpoch_size).1 sampleEpoch hparse⟩

theorem codec_round_trip_sample : ∃ bytes, encodeEpoch sampleEpoch = some bytes ∧
    parseEpoch hexParser Json.parser bytes = .ok sampleEpoch :=
  (codec_round_trip hexParser Json.parser).1 sampleEpoch sampleEpoch_wf

end Strk20.Feed.Codec
