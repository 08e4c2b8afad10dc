import Strk20.Feed.CodecRoundTrip

/-!
# What a parsed payload satisfies

Whoever wrote the bytes: numbers fit `u64`, blocks ascend and link, diffs and
events are sorted, and the footer counts. With the round trip this makes
`EpochWf` and `HeadWf` (up to the chain id's characters) what the decoder
accepts.
-/

namespace Strk20.Feed.Codec

open Text Json Result

theorem asU64_lt {v : Json} {n : Nat} (h : v.asU64 = some n) : n < 2 ^ 64 := by
  cases v with
  | num m =>
      simp only [asU64] at h
      split at h
      · rename_i hm
        cases h
        exact hm
      · cases h
  | null => cases h
  | bool b => cases h
  | other => cases h
  | str s => cases h
  | arr items => cases h
  | obj fields => cases h

theorem getU64_lt {v : Json} {k : String} {line n : Nat} (h : getU64 v k line = .ok n) :
    n < 2 ^ 64 := by
  rw [getU64, orMalformed_eq_ok] at h
  obtain ⟨w, -, hw⟩ := Option.bind_eq_some_iff.mp h
  exact asU64_lt hw

theorem getStr_eq_ok {v : Json} {k t : String} {line : Nat} :
    getStr v k line = .ok t ↔ (v.get k).bind asStr = some t := by
  rw [getStr, orMalformed_eq_ok]

theorem fromStr_eq_ok {J : JsonParser} {raw : String} {v : Json} :
    fromStr J raw = .ok v ↔ J.fromStr raw = some v := by
  rw [fromStr]
  cases J.fromStr raw <;> simp

/-- The record type of a line: the field `t` of its JSON. -/
def recordType (J : JsonParser) (raw : String) : Option String :=
  (J.fromStr raw).bind fun v => (v.get "t").bind asStr

section

variable (P : FeltParser) (J : JsonParser)

theorem parseEvent_bounded {line : Nat} {v : Json} {e : EventLine}
    (h : parseEvent P line v = .ok e) : e.Bounded := by
  unfold parseEvent at h
  split at h
  · obtain ⟨tx, htx, h⟩ := bind_eq_ok.mp h
    obtain ⟨idx, hidx, h⟩ := bind_eq_ok.mp h
    obtain ⟨hash, -, h⟩ := bind_eq_ok.mp h
    obtain ⟨keys, -, h⟩ := bind_eq_ok.mp h
    obtain ⟨data, -, h⟩ := bind_eq_ok.mp h
    obtain rfl := pure_eq_ok.mp h
    exact ⟨asU64_lt (orMalformed_eq_ok.mp htx), asU64_lt (orMalformed_eq_ok.mp hidx)⟩
  · cases h

theorem parseBlk_bounded {line : Nat} {v : Json} {b : BlockLine}
    (h : parseBlk P v line = .ok b) : b.Bounded := by
  rw [parseBlk] at h
  obtain ⟨ds, -, h⟩ := bind_eq_ok.mp h
  obtain ⟨diffs, -, h⟩ := bind_eq_ok.mp h
  obtain ⟨es, -, h⟩ := bind_eq_ok.mp h
  obtain ⟨events, hevents, h⟩ := bind_eq_ok.mp h
  obtain ⟨rc, -, h⟩ := bind_eq_ok.mp h
  obtain ⟨fin, -, h⟩ := bind_eq_ok.mp h
  obtain ⟨number, hnumber, h⟩ := bind_eq_ok.mp h
  obtain ⟨hash, -, h⟩ := bind_eq_ok.mp h
  obtain ⟨parent, -, h⟩ := bind_eq_ok.mp h
  obtain ⟨timestamp, htimestamp, h⟩ := bind_eq_ok.mp h
  obtain rfl := pure_eq_ok.mp h
  refine ⟨getU64_lt hnumber, getU64_lt htimestamp, fun e he => ?_⟩
  obtain ⟨w, -, hw⟩ := mem_of_mapM_ok hevents e he
  exact parseEvent_bounded P hw

/-- Line number `n` reads as the block `b`. -/
def ReadsBlk (raw : String) (n : Nat) (b : BlockLine) : Prop :=
  recordType J raw = some "blk" ∧ ∃ v, J.fromStr raw = some v ∧ parseBlk P v n = .ok b

/-- Line number `n` reads as the footer `f`. -/
def ReadsEnd (raw : String) (n : Nat) (f : Footer) : Prop :=
  recordType J raw = some "end" ∧ ∃ v, J.fromStr raw = some v ∧ parseFooter P v n = .ok f

/-- The header line of a file of some kind. -/
def ReadsHdr (kind raw : String) (v : Json) : Prop :=
  recordType J raw = some "hdr" ∧ J.fromStr raw = some v ∧ (v.get "kind").bind asStr = some kind

/-- What an accepted line can be, and what it does. -/
theorem parseLine_cases {kind raw : String} {s s' : Collected} {n : Nat}
    (h : parseLine P J kind s n raw = .ok s') :
    (n = 1 ∧ ∃ v, ReadsHdr J kind raw v ∧ s' = { s with header := some v }) ∨
    (s.footer = none ∧ ∃ b, ReadsBlk P J raw n b ∧ s' = { s with blocks := s.blocks ++ [b] }) ∨
    (s.footer = none ∧ ∃ f, ReadsEnd P J raw n f ∧ s' = { s with footer := some f }) := by
  rw [parseLine] at h
  obtain ⟨v, hv, h⟩ := bind_eq_ok.mp h
  obtain ⟨t, ht, h⟩ := bind_eq_ok.mp h
  have hv := fromStr_eq_ok.mp hv
  have htype : recordType J raw = some t := by
    rw [recordType, hv]
    exact getStr_eq_ok.mp ht
  split at h
  · rename_i heq
    obtain ⟨hn, h⟩ := ite_throw_eq_ok.mp h
    obtain ⟨k, hk, h⟩ := bind_eq_ok.mp h
    obtain ⟨hkind, h⟩ := ite_throw_eq_ok.mp h
    obtain ⟨version, -, h⟩ := bind_eq_ok.mp h
    obtain ⟨-, h⟩ := ite_throw_eq_ok.mp h
    rw [heq] at htype
    rw [not_not.mp hkind] at hk
    exact Or.inl ⟨not_not.mp hn, v, ⟨htype, hv, getStr_eq_ok.mp hk⟩, (pure_eq_ok.mp h).symm⟩
  · split at h
    · rename_i heq
      obtain ⟨hfooter, h⟩ := ite_throw_eq_ok.mp h
      obtain ⟨b, hb, h⟩ := bind_eq_ok.mp h
      rw [heq] at htype
      exact Or.inr (Or.inl ⟨by simpa using hfooter, b, ⟨htype, v, hv, hb⟩,
        (pure_eq_ok.mp h).symm⟩)
    · split at h
      · rename_i heq
        obtain ⟨hfooter, h⟩ := ite_throw_eq_ok.mp h
        obtain ⟨f, hf, h⟩ := bind_eq_ok.mp h
        rw [heq] at htype
        exact Or.inr (Or.inr ⟨by simpa using hfooter, f, ⟨htype, v, hv, hf⟩,
          (pure_eq_ok.mp h).symm⟩)
      · cases h

theorem parseLine_bounded {kind raw : String} {s s' : Collected} {lineNo : Nat}
    (h : parseLine P J kind s lineNo raw = .ok s') (hs : ∀ b ∈ s.blocks, b.Bounded) :
    ∀ b ∈ s'.blocks, b.Bounded := by
  rcases parseLine_cases P J h with ⟨-, v, -, rfl⟩ | ⟨-, b, ⟨-, v, -, hb⟩, rfl⟩ | ⟨-, f, -, rfl⟩
  · exact hs
  · intro c hc
    rcases List.mem_append.mp hc with hc | hc
    · exact hs c hc
    · rw [List.mem_singleton.mp hc]
      exact parseBlk_bounded P hb
  · exact hs

theorem parseLoop_bounded {kind : String} : ∀ {ls : List String} {s s' : Collected} {lineNo : Nat},
    parseLoop P J kind s lineNo ls = .ok s' → (∀ b ∈ s.blocks, b.Bounded) →
      ∀ b ∈ s'.blocks, b.Bounded
  | [], s, s', lineNo, h, hs => by
      rw [parseLoop, Except.ok.injEq] at h
      exact h ▸ hs
  | raw :: ls, s, s', lineNo, h, hs => by
      rw [parseLoop] at h
      obtain ⟨s₁, hs₁, h⟩ := bind_eq_ok.mp h
      exact parseLoop_bounded h (parseLine_bounded P J hs₁ hs)

/-- The structural checks of `parse_lines` make a well-formed block list. -/
theorem parseLines_wf {payload : ByteArray} {kind : String} {parsed : Parsed}
    (h : parseLines P J payload kind = .ok parsed) :
    BlocksWf parsed.blocks ∧ Footer.Counts parsed.footer parsed.blocks := by
  rw [parseLines] at h
  obtain ⟨text, -, h⟩ := bind_eq_ok.mp h
  obtain ⟨-, h⟩ := ite_throw_eq_ok.mp h
  obtain ⟨s, hloop, h⟩ := bind_eq_ok.mp h
  obtain ⟨header, -, h⟩ := bind_eq_ok.mp h
  obtain ⟨footer, -, h⟩ := bind_eq_ok.mp h
  obtain ⟨hblocks, h⟩ := ite_throw_eq_ok.mp h
  obtain ⟨hcounts, h⟩ := ite_throw_eq_ok.mp h
  obtain ⟨_, hlinks, h⟩ := bind_eq_ok.mp h
  obtain ⟨_, hsorted, h⟩ := bind_eq_ok.mp h
  obtain rfl := pure_eq_ok.mp h
  rw [not_or, not_not, not_not] at hcounts
  exact ⟨⟨parseLoop_bounded P J hloop (by simp), (checkLinks_ok_iff _).mp hlinks,
    (checkSorted_ok_iff _).mp hsorted⟩, ⟨not_not.mp hblocks, hcounts.1, hcounts.2⟩⟩

theorem parseEpoch_lines {payload : ByteArray} {e : Epoch} (h : parseEpoch P J payload = .ok e) :
    ∃ parsed, parseLines P J payload KIND_EPOCH = .ok parsed ∧ e.blocks = parsed.blocks ∧
      e.footer = parsed.footer := by
  rw [parseEpoch] at h
  obtain ⟨parsed, hparsed, h⟩ := bind_eq_ok.mp h
  obtain ⟨prev, -, h⟩ := bind_eq_ok.mp h
  obtain ⟨chainId, -, h⟩ := bind_eq_ok.mp h
  obtain ⟨pool, -, h⟩ := bind_eq_ok.mp h
  obtain ⟨epoch, -, h⟩ := bind_eq_ok.mp h
  obtain ⟨first, -, h⟩ := bind_eq_ok.mp h
  obtain ⟨last, -, h⟩ := bind_eq_ok.mp h
  obtain ⟨_, -, h⟩ := bind_eq_ok.mp h
  obtain rfl := pure_eq_ok.mp h
  exact ⟨parsed, hparsed, rfl, rfl⟩

theorem parseHead_lines {payload : ByteArray} {head : Head} (h : parseHead P J payload = .ok head) :
    ∃ parsed, parseLines P J payload KIND_HEAD = .ok parsed ∧ head.blocks = parsed.blocks ∧
      head.footer = parsed.footer := by
  rw [parseHead] at h
  obtain ⟨parsed, hparsed, h⟩ := bind_eq_ok.mp h
  obtain ⟨tailFrom, -, h⟩ := bind_eq_ok.mp h
  obtain ⟨hd, -, h⟩ := bind_eq_ok.mp h
  obtain ⟨headHash, -, h⟩ := bind_eq_ok.mp h
  obtain ⟨l1, -, h⟩ := bind_eq_ok.mp h
  obtain ⟨_, -, h⟩ := bind_eq_ok.mp h
  obtain rfl := pure_eq_ok.mp h
  exact ⟨parsed, hparsed, rfl, rfl⟩

/-- What every accepted epoch payload satisfies. -/
structure ParsedEpoch (e : Epoch) : Prop where
  epoch : e.header.epoch < 2 ^ 64
  first : e.header.first < 2 ^ 64
  last : e.header.last < 2 ^ 64
  blocks : BlocksWf e.blocks
  inside : ∀ b ∈ e.blocks, (e.header.first ≤ b.number ∧ b.number ≤ e.header.last) ∧
    b.finality = none

theorem parseEpoch_parsed {payload : ByteArray} {e : Epoch} (h : parseEpoch P J payload = .ok e) :
    ParsedEpoch e := by
  rw [parseEpoch] at h
  obtain ⟨parsed, hparsed, h⟩ := bind_eq_ok.mp h
  obtain ⟨prev, -, h⟩ := bind_eq_ok.mp h
  obtain ⟨chainId, -, h⟩ := bind_eq_ok.mp h
  obtain ⟨pool, -, h⟩ := bind_eq_ok.mp h
  obtain ⟨epoch, hepoch, h⟩ := bind_eq_ok.mp h
  obtain ⟨first, hfirst, h⟩ := bind_eq_ok.mp h
  obtain ⟨last, hlast, h⟩ := bind_eq_ok.mp h
  obtain ⟨_, hblocks, h⟩ := bind_eq_ok.mp h
  obtain rfl := pure_eq_ok.mp h
  exact ⟨getU64_lt hepoch, getU64_lt hfirst, getU64_lt hlast, (parseLines_wf P J hparsed).1,
    (checkEpochBlocks_ok_iff _ _ _).mp hblocks⟩

theorem parseHead_wf {payload : ByteArray} {head : Head} (h : parseHead P J payload = .ok head) :
    HeadWf head := by
  rw [parseHead] at h
  obtain ⟨parsed, hparsed, h⟩ := bind_eq_ok.mp h
  obtain ⟨tailFrom, htail, h⟩ := bind_eq_ok.mp h
  obtain ⟨hd, hhead, h⟩ := bind_eq_ok.mp h
  obtain ⟨headHash, -, h⟩ := bind_eq_ok.mp h
  obtain ⟨l1, hl1, h⟩ := bind_eq_ok.mp h
  obtain ⟨_, hblocks, h⟩ := bind_eq_ok.mp h
  obtain rfl := pure_eq_ok.mp h
  obtain ⟨hwf, hcounts⟩ := parseLines_wf P J hparsed
  exact ⟨⟨getU64_lt htail, getU64_lt hhead, getU64_lt hl1⟩, hwf,
    (checkHeadBlocks_ok_iff _ _).mp hblocks, hcounts⟩

end

end Strk20.Feed.Codec
