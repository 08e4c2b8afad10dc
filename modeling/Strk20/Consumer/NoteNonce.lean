import Mathlib.Logic.Equiv.List
import Strk20.Consumer.SdkDiscover

/-!
# The next free note index (`sdk.rs`, `sync.rs`)

`sdk::channels` offers `total_n_notes` of the saved outgoing cursor as the index of the
next note. The engine counts from where a call of it resumed; `run_incoming` replaces the
count of a complete cursor, `run_outgoing` does not. The number is the next free index as
long as, in every discovery that is not answered from the cache, every engine call of the
outgoing scan starts at the first note (`Meets`).

- `channels_nextFree`: right totals in the saved cursor are right nonces in the report.
- `noteNonce_next_free`: along every run whose discoveries meet the condition.
- `resumed_nonce_short`: a resumed discovery that offers the index of a note that is there.
-/

namespace Strk20.Consumer

open Feed Checkpoint
open Effect (lift Triple)
open Result (bind_eq_ok pure_eq_ok mem_of_mapM_ok exists_mapM_ok)

/-! ## Notes of a subchannel -/

section

variable {S : Type} [ConsumerStore S]

/-- The subchannel holds the notes `0 .. n` and no further one: `n` is the next free
index. -/
def HoldsNotes (core : DiscoveryCore S) (slots : Felt → Felt) (channelKey token : Felt)
    (n : Nat) : Prop :=
  (∀ i < n, slots (core.notesSlot (core.computeNoteId channelKey token i)) ≠ 0) ∧
    slots (core.notesSlot (core.computeNoteId channelKey token n)) = 0

omit [ConsumerStore S] in
theorem HoldsNotes.unique {core : DiscoveryCore S} {slots : Felt → Felt} {channelKey token : Felt}
    {m n : Nat} (hm : HoldsNotes core slots channelKey token m)
    (hn : HoldsNotes core slots channelKey token n) : m = n := by
  rcases Nat.lt_trichotomy m n with hlt | heq | hgt
  · exact absurd hm.2 (hn.1 m hlt)
  · exact heq
  · exact absurd hn.2 (hm.1 n hgt)

/-- `last_note_index + 1`, `0` without one. -/
def noteEnd (sub : SubchannelCursor) : Nat := (sub.lastNoteIndex.map (· + 1)).getD 0

/-- The cursor of a subchannel. -/
def subCursor (c : DiscoveryCursor) (recipient token : Felt) : Option SubchannelCursor :=
  (c.channels.lookup recipient).bind fun ch => ch.subchannels.lookup token

/-- Where a scan resumes in a subchannel. -/
def resumePoint (start : DiscoveryCursor) (recipient token : Felt) : Nat :=
  ((subCursor start recipient token).map noteEnd).getD 0

/-! ## The owner's channels, from the state -/

/-- The key of the channel to a recipient. -/
def channelKeyTo (core : SdkCore S) (owner key : Felt) (slots : Felt → Felt) (recipient : Felt) :
    Felt :=
  core.computeChannelKey owner key recipient (slots (core.publicKeySlot recipient))

/-- The channel to a recipient is open. -/
def HasChannel (core : SdkCore S) (owner key : Felt) (slots : Felt → Felt) (recipient : Felt) :
    Prop :=
  slots (core.publicKeySlot recipient) ≠ 0 ∧
    slots (core.channelExistsSlot (core.computeChannelMarker
      (channelKeyTo core owner key slots recipient) owner recipient
      (slots (core.publicKeySlot recipient)))) ≠ 0

/-- The channel to a recipient has a subchannel for the token. -/
def HasSubchannel (core : SdkCore S) (owner key : Felt) (slots : Felt → Felt)
    (recipient token : Felt) : Prop :=
  slots (core.subchannelExistsSlot (core.computeSubchannelMarker
    (channelKeyTo core owner key slots recipient) recipient (slots (core.publicKeySlot recipient))
    token)) ≠ 0

/-- The token of a channel's subchannel, by its index. -/
def tokenAt (core : SdkCore S) (slots : Felt → Felt) (channelKey : Felt) (index : Nat) : Felt :=
  core.decryptSubchannelToken
    (slots (core.subchannelTokensSlots (core.computeSubchannelId channelKey index)).1)
    (slots (core.subchannelTokensSlots (core.computeSubchannelId channelKey index)).2)
    channelKey index

/-! ## What is assumed of the engine -/

/-- Calls of the engine until it is complete. -/
inductive Scan (core : DiscoveryCore S) (s : S) (v : View) (owner key : Felt) :
    DiscoveryCursor → DiscoveryCursor → Prop
  | last {start c : DiscoveryCursor} (hcall : core.syncOutgoingState s v owner key start = .ok c)
      (hdone : core.isComplete c = true) : Scan core s v owner key start c
  | more {start mid c : DiscoveryCursor}
      (hcall : core.syncOutgoingState s v owner key start = .ok mid)
      (hopen : core.isComplete mid = false) (hrest : Scan core s v owner key mid c) :
      Scan core s v owner key start c

/-- The cursors that the engine calls of a scan start from. -/
inductive CallStart (core : DiscoveryCore S) (s : S) (v : View) (owner key : Felt)
    (start : DiscoveryCursor) : DiscoveryCursor → Prop
  | first : CallStart core s v owner key start start
  | next {c c' : DiscoveryCursor} (h : CallStart core s v owner key start c)
      (hcall : core.syncOutgoingState s v owner key c = .ok c')
      (hopen : core.isComplete c' = false) : CallStart core s v owner key start c'

/-- The engine and the libraries around it. A completed scan lists every open channel and
subchannel, keys its channels as `channels` does, and keeps `last_note_index` as the
high-water mark of the notes, from positions that hold notes. A call counts
`total_n_notes` from the point it resumed at itself, except that a subchannel which was
complete before may be left as it was. -/
structure Counts (core : SdkCore S) : Prop where
  channelKey : ∀ {s : S} {v : View} {owner key : Felt} {start c : DiscoveryCursor} {r : Felt}
    {ch : ChannelCursor}, Scan core.toDiscoveryCore s v owner key (reopenCursor start) c →
    c.channels.lookup r = some ch →
    ch.channelKey = channelKeyTo core owner key (slotsAt s v.bound) r
  channels : ∀ {s : S} {v : View} {owner key : Felt} {start c : DiscoveryCursor} {r : Felt},
    Scan core.toDiscoveryCore s v owner key (reopenCursor start) c →
    HasChannel core owner key (slotsAt s v.bound) r → ∃ ch, c.channels.lookup r = some ch
  tokens : ∀ {s : S} {v : View} {owner key : Felt} {start c : DiscoveryCursor} {r : Felt}
    {ch : ChannelCursor}, Scan core.toDiscoveryCore s v owner key (reopenCursor start) c →
    c.channels.lookup r = some ch → ∀ i < subchannelEnd ch,
      ∃ sub, ch.subchannels.lookup (tokenAt core (slotsAt s v.bound) ch.channelKey i) = some sub
  subchannels : ∀ {s : S} {v : View} {owner key : Felt} {start c : DiscoveryCursor} {r t : Felt}
    {ch : ChannelCursor}, Scan core.toDiscoveryCore s v owner key (reopenCursor start) c →
    c.channels.lookup r = some ch → HasSubchannel core owner key (slotsAt s v.bound) r t →
      ∃ i < subchannelEnd ch, tokenAt core (slotsAt s v.bound) ch.channelKey i = t
  notes : ∀ {s : S} {v : View} {owner key : Felt} {start c : DiscoveryCursor} {r t : Felt}
    {ch : ChannelCursor} {sub : SubchannelCursor},
    Scan core.toDiscoveryCore s v owner key (reopenCursor start) c →
    (∀ r t, ∀ i < resumePoint start r t, slotsAt s v.bound (core.notesSlot (core.computeNoteId
      (channelKeyTo core owner key (slotsAt s v.bound) r) t i)) ≠ 0) →
    c.channels.lookup r = some ch → ch.subchannels.lookup t = some sub →
    HoldsNotes core.toDiscoveryCore (slotsAt s v.bound) ch.channelKey t (noteEnd sub)
  complete : ∀ {c : DiscoveryCursor} {r t : Felt} {sub : SubchannelCursor},
    core.isComplete c = true → subCursor c r t = some sub → sub.noteDiscoveryComplete = true
  total : ∀ {s : S} {v : View} {owner key : Felt} {c c' : DiscoveryCursor} {r t : Felt}
    {sub : SubchannelCursor}, core.syncOutgoingState s v owner key c = .ok c' →
    subCursor c' r t = some sub → sub.noteDiscoveryComplete = true →
    sub.totalNNotes = some (noteEnd sub - resumePoint c r t) ∨ subCursor c r t = some sub
  json : ∀ c, core.fromJson (core.toJson c) = .ok c
  /-- A felt's text ends before a colon. -/
  display : ∀ (a b : Felt) (x y : String),
    core.displayFelt a ++ ":" ++ x = core.displayFelt b ++ ":" ++ y → a = b

theorem lookup_map_snd {α β γ : Type} [BEq α] (f : β → γ) (l : List (α × β)) (k : α) :
    (l.map fun e => (e.1, f e.2)).lookup k = (l.lookup k).map f := by
  induction l with
  | nil => rfl
  | cons e l ih =>
      rw [List.map_cons, List.lookup_cons, List.lookup_cons]
      cases k == e.1 with
      | true => rfl
      | false => exact ih

/-- A reopened cursor keeps the positions and nothing else of its subchannels. -/
theorem subCursor_reopenCursor (start : DiscoveryCursor) (r t : Felt) :
    subCursor (reopenCursor start) r t =
      (subCursor start r t).map fun sub => ⟨false, none, sub.lastNoteIndex⟩ := by
  have hsub : ∀ l : List (Felt × SubchannelCursor), (l.map fun sub =>
      (sub.1, (⟨false, none, sub.2.lastNoteIndex⟩ : SubchannelCursor))).lookup t =
        (l.lookup t).map fun sub => ⟨false, none, sub.lastNoteIndex⟩ :=
    fun l => lookup_map_snd
      (fun sub : SubchannelCursor => (⟨false, none, sub.lastNoteIndex⟩ : SubchannelCursor)) l t
  have hch := lookup_map_snd (fun c : ChannelCursor => (⟨c.channelKey, false,
    c.lastSubchannelIndex, c.subchannels.map fun sub => (sub.1, ⟨false, none, sub.2.lastNoteIndex⟩)⟩ :
      ChannelCursor)) start.channels r
  unfold subCursor reopenCursor
  simp only
  rw [hch]
  cases start.channels.lookup r with
  | none => rfl
  | some ch =>
      simp only [Option.map_some, Option.bind_some]
      exact hsub _

/-- A reopened cursor resumes where it stood. -/
theorem resumePoint_reopenCursor (start : DiscoveryCursor) (r t : Felt) :
    resumePoint (reopenCursor start) r t = resumePoint start r t := by
  rw [resumePoint, resumePoint, subCursor_reopenCursor]
  cases subCursor start r t <;> rfl

omit [ConsumerStore S] in
theorem scan_of_outgoingPasses {core : DiscoveryCore S} {s : S} {v : View} {owner key : Felt} :
    ∀ {n : Nat} {start c : DiscoveryCursor}, outgoingPasses core s v owner key n start = .ok c →
      Scan core s v owner key start c := by
  intro n
  induction n with
  | zero =>
      intro start c h
      cases h
  | succ n ih =>
      intro start c h
      rw [outgoingPasses] at h
      obtain ⟨mid, hmid, h⟩ := bind_eq_ok.mp h
      have hcall : core.syncOutgoingState s v owner key start = .ok mid := by
        cases hc : core.syncOutgoingState s v owner key start with
        | error e =>
            rw [hc] at hmid
            cases hmid
        | ok c' =>
            rw [hc] at hmid
            rw [Except.ok.inj hmid]
      cases hdone : core.isComplete mid with
      | true =>
          rw [hdone, if_pos rfl, pure_eq_ok] at h
          subst h
          exact .last hcall hdone
      | false =>
          rw [hdone] at h
          exact .more hcall hdone (ih h)

theorem scan_of_runOutgoing {core : DiscoveryCore S} {s : S} {bound : Nat} {owner key : Felt}
    {start c : DiscoveryCursor} (h : runOutgoing core s bound owner key start = .ok c) :
    Scan core s ⟨bound, historyFloor s⟩ owner key (reopenCursor start) c := by
  rw [runOutgoing] at h
  obtain ⟨v, hv, h⟩ := bind_eq_ok.mp h
  rw [view] at hv
  obtain ⟨-, -, hv⟩ := bind_eq_ok.mp hv
  rw [pure_eq_ok] at hv
  subst hv
  exact scan_of_outgoingPasses h

/-! ## The report -/

/-- What a cursor of the owner says of the channels at a state: it lists them, and its
totals are the next free indices. -/
structure RightTotals (core : SdkCore S) (owner key : Felt) (slots : Felt → Felt)
    (c : DiscoveryCursor) : Prop where
  channels : ∀ r, HasChannel core owner key slots r → ∃ ch, c.channels.lookup r = some ch
  tokens : ∀ r ch, c.channels.lookup r = some ch → ∀ i < subchannelEnd ch,
    ∃ sub, ch.subchannels.lookup (tokenAt core slots (channelKeyTo core owner key slots r) i) =
      some sub
  subchannels : ∀ r t ch, c.channels.lookup r = some ch → HasSubchannel core owner key slots r t →
    ∃ i < subchannelEnd ch, tokenAt core slots (channelKeyTo core owner key slots r) i = t
  totals : ∀ r t sub, subCursor c r t = some sub →
    HoldsNotes core.toDiscoveryCore slots (channelKeyTo core owner key slots r) t
      (sub.totalNNotes.getD 0)

/-- No engine call of a scan at these slots starts behind a note. -/
def FromFirstNote (core : DiscoveryCore S) (owner key : Felt) (s : S) (bound : Nat)
    (start : DiscoveryCursor) : Prop :=
  ∀ (s' : S) (v : View), slotsAt s' = slotsAt s → v.bound = bound →
    ∀ c, CallStart core s' v owner key (reopenCursor start) c → ∀ r t, resumePoint c r t = 0

/-- A complete subchannel's total is its end. -/
def CountsAll (c : DiscoveryCursor) : Prop :=
  ∀ r t sub, subCursor c r t = some sub → sub.noteDiscoveryComplete = true →
    sub.totalNNotes = some (noteEnd sub)

/-- A scan none of whose calls starts behind a note counts every note. -/
theorem Counts.totals {core : SdkCore S} (hcore : Counts core) {s : S} {v : View}
    {owner key : Felt} {start c₀ c : DiscoveryCursor}
    (hscan : Scan core.toDiscoveryCore s v owner key c₀ c)
    (hfirst : ∀ c, CallStart core.toDiscoveryCore s v owner key start c →
      ∀ r t, resumePoint c r t = 0)
    (hcall₀ : CallStart core.toDiscoveryCore s v owner key start c₀) (hc₀ : CountsAll c₀) :
    CountsAll c := by
  -- one call: what it completes it counts from the first note
  have hstep : ∀ {c c' : DiscoveryCursor}, CallStart core.toDiscoveryCore s v owner key start c →
      CountsAll c → core.syncOutgoingState s v owner key c = .ok c' → CountsAll c' := by
    intro c c' hc htotals hcall r t sub hsub hdone
    rcases hcore.total hcall hsub hdone with htotal | hkept
    · rw [htotal, hfirst c hc r t, Nat.sub_zero]
    · exact htotals r t sub hkept hdone
  induction hscan with
  | last hcall hdone => exact hstep hcall₀ hc₀ hcall
  | more hcall hopen hrest ih => exact ih (hcall₀.next hcall hopen) (hstep hcall₀ hc₀ hcall)

omit [ConsumerStore S] in
theorem Scan.isComplete {core : DiscoveryCore S} {s : S} {v : View} {owner key : Felt}
    {start c : DiscoveryCursor} (h : Scan core s v owner key start c) : core.isComplete c = true := by
  induction h with
  | last hcall hdone => exact hdone
  | more hcall hopen hrest ih => exact ih

theorem Counts.rightTotals {core : SdkCore S} (hcore : Counts core) {s : S} {v : View}
    {owner key : Felt} {start c : DiscoveryCursor}
    (hscan : Scan core.toDiscoveryCore s v owner key (reopenCursor start) c)
    (hfirst : FromFirstNote core.toDiscoveryCore owner key s v.bound start) :
    RightTotals core owner key (slotsAt s v.bound) c := by
  have hcalls := hfirst s v rfl rfl
  refine ⟨fun r => hcore.channels hscan, ?_, ?_, ?_⟩
  · intro r ch hr i hi
    rw [← hcore.channelKey hscan hr]
    exact hcore.tokens hscan hr i hi
  · intro r t ch hr ht
    rw [← hcore.channelKey hscan hr]
    exact hcore.subchannels hscan hr ht
  · intro r t sub hsub
    obtain ⟨ch, hr, ht⟩ := Option.bind_eq_some_iff.mp hsub
    have hopen : CountsAll (reopenCursor start) := by
      intro r t sub hsub hdone
      rw [subCursor_reopenCursor, Option.map_eq_some_iff] at hsub
      obtain ⟨old, -, rfl⟩ := hsub
      cases hdone
    have htotal := hcore.totals hscan hcalls .first hopen r t sub hsub
      (hcore.complete hscan.isComplete hsub)
    have hnotes := hcore.notes hscan (fun r t i hi => by
      rw [← resumePoint_reopenCursor, hcalls _ .first] at hi
      exact absurd hi (Nat.not_lt_zero i)) hr ht
    rw [htotal, Option.getD_some, ← hcore.channelKey hscan hr]
    exact hnotes

/-- `channels` answers at the checkpoint's block, lists every open subchannel of the
recipients asked for, and offers the next free index wherever it offers one. -/
structure NextFree (core : SdkCore S) (owner key : Felt) (s : S) : Prop where
  answers : ∀ recipients : Option (List Felt), ∃ cp report, checkpoint core s = .ok cp ∧
    sdkChannels core s owner key recipients = .ok report ∧ report.block = cp.blockNumber
  listed : ∀ (recipients : Option (List Felt)) (report : ChannelsReport),
    sdkChannels core s owner key recipients = .ok report →
    ∀ r t, (∀ asked ∈ recipients, r ∈ asked) →
      HasChannel core owner key (slotsAt s report.block) r →
      HasSubchannel core owner key (slotsAt s report.block) r t →
      ∃ ch ∈ report.channels, ch.recipient = r ∧ ∃ entry ∈ ch.tokens, entry.1 = t
  nonce : ∀ (recipients : Option (List Felt)) (report : ChannelsReport),
    sdkChannels core s owner key recipients = .ok report →
    ∀ ch ∈ report.channels, ∀ entry ∈ ch.tokens,
      HoldsNotes core.toDiscoveryCore (slotsAt s report.block)
        (core.computeChannelKey owner key ch.recipient ch.publicKey) entry.1 entry.2.2

theorem channelToken_of_lookup {core : SdkCore S} {s : S} {block : Nat} {channelKey : Felt}
    {channel : ChannelCursor} {index : Nat} {sub : SubchannelCursor}
    (h : channel.subchannels.lookup (tokenAt core (slotsAt s block) channelKey index) = some sub) :
    channelToken core s block channelKey channel index =
      .ok (tokenAt core (slotsAt s block) channelKey index, index, sub.totalNNotes.getD 0) := by
  unfold tokenAt slotsAt at h ⊢
  unfold channelToken
  simp only [h]
  rfl

theorem mem_channelTokens {core : SdkCore S} {s : S} {block : Nat} {channelKey : Felt}
    {channel : ChannelCursor} {tokens : List (Felt × Nat × Nat)}
    (h : channelTokens core s block channelKey channel = .ok tokens) {entry : Felt × Nat × Nat}
    (hentry : entry ∈ tokens) :
    ∃ sub, channel.subchannels.lookup entry.1 = some sub ∧ entry.2.2 = sub.totalNNotes.getD 0 := by
  obtain ⟨index, -, h⟩ := mem_of_mapM_ok h entry hentry
  unfold channelToken at h
  simp only at h
  split at h
  · cases h
  · rename_i sub hsub
    rw [← pure_eq_ok.mp h]
    exact ⟨sub, hsub, rfl⟩

/-- A channel whose cursor knows the token at every index. -/
theorem channelTokens_ok {core : SdkCore S} {s : S} {block : Nat} {channelKey : Felt}
    {channel : ChannelCursor} (h : ∀ i < subchannelEnd channel, ∃ sub,
      channel.subchannels.lookup (tokenAt core (slotsAt s block) channelKey i) = some sub) :
    ∃ tokens, channelTokens core s block channelKey channel = .ok tokens ∧
      ∀ i < subchannelEnd channel, ∃ entry ∈ tokens,
        entry.1 = tokenAt core (slotsAt s block) channelKey i := by
  obtain ⟨tokens, hok, hall⟩ := exists_mapM_ok fun i hi => by
    obtain ⟨sub, hsub⟩ := h i (List.mem_range.mp hi)
    exact ⟨_, channelToken_of_lookup hsub⟩
  refine ⟨tokens, hok, fun i hi => ?_⟩
  obtain ⟨sub, hsub⟩ := h i hi
  exact ⟨_, hall i (List.mem_range.mpr hi) _ (channelToken_of_lookup hsub), rfl⟩

/-- What a right cursor reports of a recipient. -/
theorem sdkChannel_spec {core : SdkCore S} {owner key : Felt} {s : S} {block : Nat}
    {c : DiscoveryCursor} (hright : RightTotals core owner key (slotsAt s block) c) (r : Felt) :
    ∃ found, sdkChannel core s block owner key c r = .ok found ∧
      (HasChannel core owner key (slotsAt s block) r → ∃ ch, found = some ch ∧ ch.recipient = r ∧
        ∀ t, HasSubchannel core owner key (slotsAt s block) r t → ∃ entry ∈ ch.tokens,
          entry.1 = t) ∧
      ∀ ch, found = some ch → ∀ entry ∈ ch.tokens, HoldsNotes core.toDiscoveryCore (slotsAt s block)
        (core.computeChannelKey owner key ch.recipient ch.publicKey) entry.1 entry.2.2 := by
  unfold sdkChannel
  by_cases hkey : (ConsumerStore.readSlotAsOf s (core.publicKeySlot r) block).1 = 0
  · simp only [if_pos hkey]
    refine ⟨none, rfl, fun hopen => absurd hkey hopen.1, ?_⟩
    intro ch hch
    cases hch
  · simp only [if_neg hkey]
    cases hlookup : c.channels.lookup r with
    | none =>
        refine ⟨_, rfl, fun hopen => ?_, ?_⟩
        · obtain ⟨ch, hch⟩ := hright.channels r hopen
          rw [hlookup] at hch
          cases hch
        · intro ch hch entry hentry
          obtain rfl := Option.some.inj hch
          cases hentry
    | some channel =>
        obtain ⟨tokens, htokens, hall⟩ := channelTokens_ok (hright.tokens r channel hlookup)
        refine ⟨_, bind_eq_ok.mpr ⟨tokens, htokens, rfl⟩, fun _ => ⟨_, rfl, rfl, ?_⟩, ?_⟩
        · intro t ht
          obtain ⟨i, hi, rfl⟩ := hright.subchannels r t channel hlookup ht
          exact hall i hi
        · intro ch hch entry hentry
          obtain rfl := Option.some.inj hch
          obtain ⟨sub, hsub, hnonce⟩ := mem_channelTokens htokens hentry
          rw [hnonce]
          exact hright.totals r entry.1 sub (Option.bind_eq_some_iff.mpr ⟨channel, hlookup, hsub⟩)

theorem channels_nextFree {core : SdkCore S} (hcore : Counts core) {owner key : Felt} {s : S}
    {cp : TrustedCheckpoint} {c : DiscoveryCursor} (hcp : checkpoint core s = .ok cp)
    (hlive : metaGet s (keys .outgoing owner).live = some (core.toJson c))
    (hright : RightTotals core owner key (slotsAt s cp.blockNumber) c) :
    NextFree core owner key s := by
  have hcursor : sdkCursor core s .outgoing owner = .ok c := by
    rw [sdkCursor, hlive, Option.getD_some, decodeCursor, hcore.json]
    rfl
  -- the report of a list of recipients, entry by entry
  have hrun : ∀ recipients : Option (List Felt), ∃ (found : List (Option SdkChannel))
      (report : ChannelsReport), sdkChannels core s owner key recipients = .ok report ∧ report.block = cp.blockNumber ∧
      report.channels = found.filterMap id ∧
      (∀ r ∈ recipients.getD (c.channels.map Prod.fst), ∀ x,
        sdkChannel core s cp.blockNumber owner key c r = .ok x → x ∈ found) ∧
      ∀ x ∈ found, ∃ r, sdkChannel core s cp.blockNumber owner key c r = .ok x := by
    intro recipients
    obtain ⟨found, hfound, hall⟩ := exists_mapM_ok (l := ((recipients.getD
        (c.channels.map Prod.fst)).mergeSort fun a b => a.val ≤ b.val).dedup)
      (f := sdkChannel core s cp.blockNumber owner key c) fun r _ =>
        (sdkChannel_spec hright r).imp fun _ h => h.1
    refine ⟨found, _, bind_eq_ok.mpr ⟨cp, hcp, bind_eq_ok.mpr ⟨c, hcursor,
      bind_eq_ok.mpr ⟨found, hfound, rfl⟩⟩⟩, rfl, rfl, fun r hr => ?_, fun x hx => ?_⟩
    · exact hall r (List.mem_dedup.mpr (List.mem_mergeSort.mpr hr))
    · obtain ⟨r, -, hr⟩ := mem_of_mapM_ok hfound x hx
      exact ⟨r, hr⟩
  refine ⟨fun recipients => ?_, fun recipients report h r t hasked hopen hsub => ?_,
    fun recipients report h ch hch entry hentry => ?_⟩
  · obtain ⟨found, report, hok, hblock, -⟩ := hrun recipients
    exact ⟨cp, report, hcp, hok, hblock⟩
  · obtain ⟨found, report', hok, hblock, hchannels, hlisted, -⟩ := hrun recipients
    obtain rfl := Except.ok.inj (hok.symm.trans h)
    rw [hblock] at hopen hsub
    obtain ⟨x, hx, hhas, -⟩ := sdkChannel_spec hright r
    obtain ⟨ch, rfl, hrecipient, htokens⟩ := hhas hopen
    have hmem : r ∈ recipients.getD (c.channels.map Prod.fst) := by
      cases recipients with
      | some asked => exact hasked asked rfl
      | none =>
          obtain ⟨channel, hchannel⟩ := hright.channels r hopen
          obtain ⟨l₁, l₂, heq, -⟩ := List.lookup_eq_some_iff.mp hchannel
          rw [Option.getD_none, heq]
          simp
    refine ⟨ch, ?_, hrecipient, htokens t hsub⟩
    rw [hchannels]
    exact List.mem_filterMap.mpr ⟨some ch, hlisted r hmem _ hx, rfl⟩
  · obtain ⟨found, report', hok, hblock, hchannels, -, hfrom⟩ := hrun recipients
    obtain rfl := Except.ok.inj (hok.symm.trans h)
    rw [hchannels] at hch
    obtain ⟨x, hx, rfl⟩ := List.mem_filterMap.mp hch
    obtain ⟨r, hr⟩ := hfrom _ hx
    obtain ⟨x', hx', -, hnonce⟩ := sdkChannel_spec hright r
    obtain rfl := Except.ok.inj (hr.symm.trans hx')
    rw [hblock]
    exact hnonce ch rfl entry hentry

end

section

variable {S : Type} [SharedStore S]

/-! ## Runs -/

/-- The mirror at the checkpoint is the chain's state at its block. -/
def Verified (core : SdkCore S) (chain : Felt → Felt → Felt) (s : S) : Prop :=
  ∀ cp, checkpoint core s = .ok cp → slotsAt s cp.blockNumber = chain cp.blockHash

/-- The cache answers. -/
def Cached (core : SdkCore S) (owner key : Felt) (s : S) (cp : TrustedCheckpoint) : Prop :=
  metaGet s (cacheKey owner ++ "_stamp") =
      some (sdkStamp core cp (ConsumerStore.tailGeneration s) key) ∧
    (metaGet s (cacheKey owner)).isSome

/-- The condition on the state before a discovery: a cached report is that of a discovery
after which none has failed, and any other starts every engine call of its outgoing scan
at the first note of every subchannel. -/
def Meets (core : SdkCore S) (owner key : Felt) (trusted : Bool) (s : S) : Prop :=
  ∀ cp, checkpoint core s = .ok cp →
    (Cached core owner key s cp → trusted = true) ∧
    (¬ Cached core owner key s cp → ∀ start, resumeCursor core s owner key cp = .ok start →
      FromFirstNote core.toDiscoveryCore owner key s cp.blockNumber start)

/-- One owner's discoveries on a store, under the viewing keys `K`. In between anything may
happen to the store that leaves the stamp and the saved outgoing cursor: folds,
verifications, other owners. The flag says that no discovery failed since the last one
that did not. -/
inductive NonceRun (core : SdkCore S) (owner : Felt) (K : Set Felt) (chain : Felt → Felt → Felt) :
    S → Bool → Prop
  | start (s : S) : NonceRun core owner K chain s false
  | moved {s s' : S} {trusted : Bool} (h : NonceRun core owner K chain s trusted)
      (hlive : metaGet s' (keys .outgoing owner).live = metaGet s (keys .outgoing owner).live)
      (hstamp : metaGet s' (cacheKey owner ++ "_stamp") =
        metaGet s (cacheKey owner ++ "_stamp")) : NonceRun core owner K chain s' trusted
  | failed {s : S} {trusted : Bool} {key : Felt} {budget : Nat} {e : Failure} {h' : Host S}
      (h : NonceRun core owner K chain s trusted)
      (hrun : sdkDiscover core owner key ⟨s, budget, []⟩ = .error e h') :
      NonceRun core owner K chain h'.store false
  | discovered {s : S} {trusted : Bool} {key : Felt} {budget : Nat} {report : String} {h' : Host S}
      (h : NonceRun core owner K chain s trusted) (hkey : key ∈ K)
      (hverified : Verified core chain s) (hmeets : Meets core owner key trusted s)
      (hrun : sdkDiscover core owner key ⟨s, budget, []⟩ = .ok report h') :
      NonceRun core owner K chain h'.store true

/-- Under whichever checkpoint and key the stamp is the cache's, the saved cursor's totals
are right at that checkpoint's block. -/
def CacheRight (core : SdkCore S) (owner : Felt) (K : Set Felt) (chain : Felt → Felt → Felt)
    (s : S) : Prop :=
  ∀ key ∈ K, ∀ (cp : TrustedCheckpoint) (generation : Nat),
    metaGet s (cacheKey owner ++ "_stamp") = some (sdkStamp core cp generation key) →
    ∃ c, metaGet s (keys .outgoing owner).live = some (core.toJson c) ∧
      RightTotals core owner key (chain cp.blockHash) c

theorem sdkStamp_inj {core : SdkCore S} (hcore : Counts core) {cp cp' : TrustedCheckpoint}
    {generation generation' : Nat} {key key' : Felt}
    (h : sdkStamp core cp generation key = sdkStamp core cp' generation' key') :
    cp.blockHash = cp'.blockHash ∧ fingerprint key = fingerprint key' := by
  constructor
  · have hsplit : ∀ (cp : TrustedCheckpoint) (generation : Nat) (key : Felt),
        sdkStamp core cp generation key = core.displayFelt cp.blockHash ++ ":" ++
          (generation.repr ++ (":" ++ fingerprint key)) := by
      intro cp generation key
      simp only [sdkStamp, String.append_assoc]
    rw [hsplit, hsplit] at h
    exact hcore.display _ _ _ _ h
  · have hlen : ∀ k : Felt, (fingerprint k).toList.length = 64 := fun k => by
      rw [fingerprint, hexEncode_eq, length_hexDigits]
    have hlist : (core.displayFelt cp.blockHash ++ ":" ++ generation.repr ++ ":").toList ++
        (fingerprint key).toList = (core.displayFelt cp'.blockHash ++ ":" ++ generation'.repr ++
          ":").toList ++ (fingerprint key').toList := by
      rw [← String.toList_append, ← String.toList_append]
      exact congrArg String.toList h
    exact String.toList_inj.mp (List.append_inj_right' hlist ((hlen key).trans (hlen key').symm))

/-- One discovery that meets the condition. -/
theorem discover_right {core : SdkCore S} (hcore : Counts core) {owner key : Felt} {K : Set Felt}
    (hK : Set.InjOn fingerprint K) {chain : Felt → Felt → Felt} {s : S} {trusted : Bool}
    (hcache : trusted = true → CacheRight core owner K chain s) (hkey : key ∈ K)
    (hverified : Verified core chain s) (hmeets : Meets core owner key trusted s) {budget : Nat}
    {report : String} {h' : Host S}
    (hrun : sdkDiscover core owner key ⟨s, budget, []⟩ = .ok report h') :
    NextFree core owner key h'.store ∧ CacheRight core owner K chain h'.store := by
  rw [sdkDiscover, Effect.get_bind] at hrun
  obtain ⟨cp, hcp, hrun⟩ := Effect.lift_bind_ok.mp hrun
  obtain ⟨htrusted, hstart⟩ := hmeets cp hcp
  have hslots := hverified cp hcp
  by_cases hcached : Cached core owner key s cp
  · -- the report and the store are those of the discovery that wrote the stamp
    have hright := hcache (htrusted hcached)
    obtain ⟨text, htext⟩ := Option.isSome_iff_exists.mp hcached.2
    obtain ⟨c, hlive, htotals⟩ := hright key hkey cp _ hcached.1
    simp only [if_pos hcached.1, htext, Effect.pure_apply] at hrun
    obtain ⟨-, rfl⟩ := EStateM.Result.ok.inj hrun
    rw [← hslots] at htotals
    exact ⟨channels_nextFree hcore hcp hlive htotals, hright⟩
  · have hfresh : freshDiscover core owner key cp
        (sdkStamp core cp (ConsumerStore.tailGeneration s) key) ⟨s, budget, []⟩ = .ok report h' := by
      by_cases hstamp : metaGet s (cacheKey owner ++ "_stamp") =
          some (sdkStamp core cp (ConsumerStore.tailGeneration s) key)
      · have hnone : metaGet s (cacheKey owner) = none := by
          by_contra hsome
          exact hcached ⟨hstamp, Option.isSome_iff_ne_none.mpr hsome⟩
        simpa only [if_pos hstamp, hnone] using hrun
      · simpa only [if_neg hstamp] using hrun
    obtain ⟨c, hdone⟩ := (triple_freshDiscover core key s cp _).ok rfl hfresh
    obtain ⟨start, s₂, hresume, hslots₂, hscan⟩ := hdone.cursor
    have hfirst : FromFirstNote core.toDiscoveryCore owner key s₂ cp.blockNumber start :=
      fun s' v hs' => hstart hcached start hresume s' v (hs'.trans (slotsAt_congr hslots₂))
    have htotals := hcore.rightTotals (scan_of_runOutgoing hscan) hfirst
    have hsame : slotsAt h'.store = slotsAt s := slotsAt_congr hdone.slotSet
    have htotals' : RightTotals core owner key (slotsAt s cp.blockNumber) c := by
      rw [← slotsAt_congr hslots₂]
      exact htotals
    constructor
    · refine channels_nextFree hcore ((checkpoint_congr core hdone.kept).trans hcp) hdone.live ?_
      rw [hsame]
      exact htotals'
    · intro key' hkey' cp' generation hstamp
      rw [hdone.stamp, Option.some.injEq] at hstamp
      obtain ⟨hhash, hprint⟩ := sdkStamp_inj hcore hstamp
      refine ⟨c, hdone.live, ?_⟩
      rw [← hhash, ← hK hkey hkey' hprint, ← hslots]
      exact htotals'

theorem NonceRun.cacheRight {core : SdkCore S} (hcore : Counts core) {owner : Felt} {K : Set Felt}
    (hK : Set.InjOn fingerprint K) {chain : Felt → Felt → Felt} {s : S} {trusted : Bool}
    (h : NonceRun core owner K chain s trusted) : trusted = true →
      CacheRight core owner K chain s := by
  induction h with
  | start s =>
      intro htrue
      cases htrue
  | moved h hlive hstamp ih =>
      intro htrue key hkey cp generation hcached
      rw [hstamp] at hcached
      rw [hlive]
      exact ih htrue key hkey cp generation hcached
  | failed h hrun ih =>
      intro htrue
      cases htrue
  | discovered h hkey hverified hmeets hrun ih =>
      intro _
      exact (discover_right hcore hK ih hkey hverified hmeets hrun).2

end

/-! ## An engine for one subchannel -/

section

variable {S : Type} [ConsumerStore S]

/-- The first free slot among the notes from `i` on. -/
def firstFree (slots : Felt → Felt) : Nat → Nat → Option Nat
  | 0, _ => none
  | fuel + 1, i => if slots (Fin.ofNat STARK_PRIME (200 + i)) = 0 then some i
      else firstFree slots fuel (i + 1)

theorem firstFree_spec {slots : Felt → Felt} {fuel : Nat} :
    ∀ {i n : Nat}, firstFree slots fuel i = some n → i ≤ n ∧
      (∀ j, i ≤ j → j < n → slots (Fin.ofNat STARK_PRIME (200 + j)) ≠ 0) ∧
      slots (Fin.ofNat STARK_PRIME (200 + n)) = 0 := by
  induction fuel with
  | zero =>
      intro i n h
      cases h
  | succ fuel ih =>
      intro i n h
      rw [firstFree] at h
      by_cases hz : slots (Fin.ofNat STARK_PRIME (200 + i)) = 0
      · rw [if_pos hz, Option.some.injEq] at h
        subst h
        exact ⟨Nat.le_refl i, fun j hj hlt => absurd hlt (Nat.not_lt.mpr hj), hz⟩
      · rw [if_neg hz] at h
        obtain ⟨hle, hall, hfree⟩ := ih h
        refine ⟨Nat.le_of_succ_le hle, fun j hj hlt => ?_, hfree⟩
        rcases Nat.eq_or_lt_of_le hj with rfl | hj
        · exact hz
        · exact hall j hj hlt

/-- The complete cursor of a scan that resumed at `resume` and found `n` notes. -/
def oneCursor (channelKey : Felt) (resume n : Nat) : DiscoveryCursor :=
  ⟨true, some 1, some 0, [(2, ⟨channelKey, true, some 0,
    [(9, ⟨true, some (n - resume), if n = 0 then none else some (n - 1)⟩)]⟩)]⟩

/-- An engine that knows the channel to recipient 2 with its token 9, and refuses a state
in which another recipient or another token is registered. -/
def scanOne (s : S) (v : View) (start : DiscoveryCursor) : Except String DiscoveryCursor :=
  if slotsAt s v.bound 97 ≠ 0 ∨ slotsAt s v.bound 98 ≠ 0 ∨ slotsAt s v.bound 103 ≠ 9 then
    .error "unknown channel"
  else
    match firstFree (slotsAt s v.bound) 4 (resumePoint start 2 9) with
    | none => .error "scan exceeds its budget"
    | some n => .ok (oneCursor (slotsAt s v.bound 100) (resumePoint start 2 9) n)

/-- A cursor as nested pairs. -/
def DiscoveryCursor.code (c : DiscoveryCursor) : Bool × Option Nat × Option Nat × List (Felt ×
    Felt × Bool × Option Nat × List (Felt × Bool × Option Nat × Option Nat)) :=
  (c.channelDiscoveryComplete, c.totalNChannels, c.lastChannelIndex, c.channels.map fun e =>
    (e.1, e.2.channelKey, e.2.subchannelDiscoveryComplete, e.2.lastSubchannelIndex,
      e.2.subchannels.map fun x =>
        (x.1, x.2.noteDiscoveryComplete, x.2.totalNNotes, x.2.lastNoteIndex)))

def DiscoveryCursor.ofCode (p : Bool × Option Nat × Option Nat × List (Felt × Felt × Bool ×
    Option Nat × List (Felt × Bool × Option Nat × Option Nat))) : DiscoveryCursor :=
  ⟨p.1, p.2.1, p.2.2.1, p.2.2.2.map fun e => (e.1, ⟨e.2.1, e.2.2.1, e.2.2.2.1,
    e.2.2.2.2.map fun x => (x.1, ⟨x.2.1, x.2.2.1, x.2.2.2⟩)⟩)⟩

theorem DiscoveryCursor.ofCode_code (c : DiscoveryCursor) : ofCode c.code = c := by
  simp only [code, ofCode, List.map_map]
  congr 1
  refine (List.map_congr_left fun e _ => ?_).trans (List.map_id _)
  simp only [Function.comp, List.map_map, id]
  refine Prod.ext rfl ?_
  simp only
  congr 1
  exact (List.map_congr_left fun x _ => rfl).trans (List.map_id _)

def cursorToJson (c : DiscoveryCursor) : String := (Encodable.encode c.code).repr

def cursorFromJson (text : String) : Except String DiscoveryCursor :=
  (((Text.digitsValue text.toList).bind Encodable.decode).map DiscoveryCursor.ofCode).elim
    (.error "invalid cursor") .ok

/-- The channel to recipient 2 under its public key, at fixed slots. -/
def oneCore : SdkCore S where
  isComplete c := c.channelDiscoveryComplete && c.channels.all fun e =>
    e.2.subchannels.all fun x => x.2.noteDiscoveryComplete
  syncIncomingState _ _ _ _ _ := .ok (⟨true, some 0, none, []⟩, [])
  syncOutgoingState s v _ _ start := scanOne s v start
  computeNullifier _ _ _ _ := 0
  computeNoteId _ _ i := Fin.ofNat STARK_PRIME (200 + i)
  decryptPackedValue _ _ _ _ := (0, 0)
  notesSlot id := id
  nullifiersSlot id := id
  toJson := cursorToJson
  fromJson := cursorFromJson
  readCheckpoint text :=
    if text = "ten" then .ok ⟨"SN_MAIN", 0, 10, 1, 0⟩
    else if text = "eleven" then .ok ⟨"SN_MAIN", 0, 11, 2, 0⟩
    else .error "invalid checkpoint"
  displayFelt := feltHex
  publicKeySlot recipient := if recipient = 2 then 100 else 97
  channelExistsSlot _ := 101
  subchannelExistsSlot token := if token = 9 then 104 else 98
  subchannelTokensSlots _ := (102, 103)
  computeChannelKey _ _ _ publicKey := publicKey
  computeChannelMarker _ _ _ _ := 0
  computeSubchannelId _ _ := 0
  computeSubchannelMarker _ _ _ token := token
  decryptSubchannelToken _ encrypted _ _ := encrypted
  renderDiscover report := report.block.repr

theorem scanOne_ok {s : S} {v : View} {start c : DiscoveryCursor} (h : scanOne s v start = .ok c) :
    (slotsAt s v.bound 97 = 0 ∧ slotsAt s v.bound 98 = 0 ∧ slotsAt s v.bound 103 = 9) ∧
      ∃ n, firstFree (slotsAt s v.bound) 4 (resumePoint start 2 9) = some n ∧
        c = oneCursor (slotsAt s v.bound 100) (resumePoint start 2 9) n := by
  unfold scanOne at h
  split at h
  · cases h
  · rename_i hknown
    obtain ⟨hkey, htoken, hnine⟩ := by simpa only [not_or, not_not] using hknown
    cases hfree : firstFree (slotsAt s v.bound) 4 (resumePoint start 2 9) with
    | none =>
        rw [hfree] at h
        cases h
    | some n =>
        rw [hfree] at h
        exact ⟨⟨hkey, htoken, hnine⟩, n, rfl, (Except.ok.inj h).symm⟩

/-- No recipient but 2 and no token but 9 is registered. -/
structure KnownSlots (slots : Felt → Felt) : Prop where
  recipients : slots 97 = 0
  tokens : slots 98 = 0
  nine : slots 103 = 9

theorem KnownSlots.not {slots : Felt → Felt} (h : KnownSlots slots) :
    ¬ (slots 97 ≠ 0 ∨ slots 98 ≠ 0 ∨ slots 103 ≠ 9) := by
  simp [h.recipients, h.tokens, h.nine]

/-- The engine is complete after one call. -/
theorem scan_oneCore {s : S} {v : View} {owner key : Felt} {start c : DiscoveryCursor}
    (h : Scan (oneCore (S := S)).toDiscoveryCore s v owner key start c) :
    scanOne s v start = .ok c := by
  cases h with
  | last hcall hdone => exact hcall
  | @more _ mid _ hcall hopen hrest =>
      obtain ⟨-, n, -, rfl⟩ := scanOne_ok hcall
      cases hopen

theorem lookup_oneCursor {channelKey : Felt} {resume n : Nat} {r : Felt} {ch : ChannelCursor}
    (h : (oneCursor channelKey resume n).channels.lookup r = some ch) :
    r = 2 ∧ ch = ⟨channelKey, true, some 0,
      [(9, ⟨true, some (n - resume), if n = 0 then none else some (n - 1)⟩)]⟩ := by
  rw [oneCursor, List.lookup_cons] at h
  cases hr : r == 2 with
  | false =>
      rw [hr] at h
      cases h
  | true =>
      rw [hr] at h
      exact ⟨eq_of_beq hr, (Option.some.inj h).symm⟩

theorem lookup_oneToken {sub sub' : SubchannelCursor} {t : Felt}
    (h : [((9 : Felt), sub)].lookup t = some sub') : t = 9 ∧ sub' = sub := by
  rw [List.lookup_cons] at h
  cases ht : t == 9 with
  | false =>
      rw [ht] at h
      cases h
  | true =>
      rw [ht] at h
      exact ⟨eq_of_beq ht, (Option.some.inj h).symm⟩

theorem noteEnd_one (n total : Nat) :
    noteEnd ⟨true, some total, if n = 0 then none else some (n - 1)⟩ = n := by
  unfold noteEnd
  by_cases hn : n = 0
  · rw [if_pos hn, hn]
    rfl
  · rw [if_neg hn]
    exact Nat.sub_add_cancel (Nat.one_le_iff_ne_zero.mpr hn)

/-- No colon in a felt's text. -/
theorem colon_not_mem_feltHex (f : Felt) : ':' ∉ (feltHex f).toList := by
  have hdigit : ∀ m < 16, Nat.digitChar m ≠ ':' := by decide
  have htrimmed : ∀ p, ':' ∉ (hexDigits (toBytesBe f).val 64).dropWhile p := by
    intro p hmem
    have hin := (List.dropWhile_sublist _).subset hmem
    rw [hexDigits] at hin
    obtain ⟨i, -, hi⟩ := List.mem_map.mp hin
    exact hdigit _ (Nat.mod_lt _ (by decide)) hi
  unfold feltHex
  dsimp only
  split
  · decide
  · rw [String.toList_append, List.mem_append, not_or]
    constructor
    · simp
    · rw [String.toList_ofList]
      exact htrimmed _

theorem takeWhile_colon {f : Felt} (x : String) :
    (feltHex f ++ ":" ++ x).toList.takeWhile (· != ':') = (feltHex f).toList := by
  have hall : ∀ c ∈ (feltHex f).toList, (c != ':') = true := by
    intro c hc
    rw [bne_iff_ne]
    rintro rfl
    exact colon_not_mem_feltHex f hc
  rw [String.append_assoc, String.toList_append, List.takeWhile_append_of_pos hall]
  have hcolon : (":" ++ x).toList = ':' :: x.toList := by simp
  rw [hcolon, List.takeWhile_cons_of_neg (by decide), List.append_nil]

theorem subCursor_oneCursor {channelKey : Felt} {resume n : Nat} {r t : Felt}
    {sub : SubchannelCursor} (h : subCursor (oneCursor channelKey resume n) r t = some sub) :
    r = 2 ∧ t = 9 ∧ sub = ⟨true, some (n - resume), if n = 0 then none else some (n - 1)⟩ := by
  obtain ⟨ch, hr, ht⟩ := Option.bind_eq_some_iff.mp h
  obtain ⟨rfl, rfl⟩ := lookup_oneCursor hr
  obtain ⟨rfl, rfl⟩ := lookup_oneToken ht
  exact ⟨rfl, rfl, rfl⟩

/-- Every subchannel of a complete cursor is complete. -/
theorem complete_oneCore {c : DiscoveryCursor} {r t : Felt} {sub : SubchannelCursor}
    (hdone : (oneCore (S := S)).isComplete c = true) (h : subCursor c r t = some sub) :
    sub.noteDiscoveryComplete = true := by
  obtain ⟨ch, hr, ht⟩ := Option.bind_eq_some_iff.mp h
  obtain ⟨l₁, l₂, heq, -⟩ := List.lookup_eq_some_iff.mp hr
  obtain ⟨m₁, m₂, heq', -⟩ := List.lookup_eq_some_iff.mp ht
  have hall := (Bool.and_eq_true_iff.mp hdone).2
  have hch := List.all_eq_true.mp hall (r, ch) (by rw [heq]; simp)
  exact List.all_eq_true.mp hch (t, sub) (by rw [heq']; simp)

theorem counts_oneCore : Counts (oneCore (S := S)) where
  channelKey {s v owner key start c r ch} hscan hr := by
    obtain ⟨-, n, -, rfl⟩ := scanOne_ok (scan_oneCore hscan)
    obtain ⟨rfl, rfl⟩ := lookup_oneCursor hr
    rfl
  channels {s v owner key start c r} hscan hopen := by
    obtain ⟨⟨hkey, -, -⟩, n, -, rfl⟩ := scanOne_ok (scan_oneCore hscan)
    -- recipient 2 is the only one with a registered key
    by_cases hr : r = 2
    · subst hr
      exact ⟨_, rfl⟩
    · have hslot : (oneCore (S := S)).publicKeySlot r = 97 := if_neg hr
      have hregistered := hopen.1
      rw [hslot] at hregistered
      exact absurd hkey hregistered
  tokens {s v owner key start c r ch} hscan hr i _ := by
    obtain ⟨⟨-, -, hnine⟩, n, -, rfl⟩ := scanOne_ok (scan_oneCore hscan)
    obtain ⟨rfl, rfl⟩ := lookup_oneCursor hr
    have htoken : tokenAt (oneCore (S := S)) (slotsAt s v.bound) (slotsAt s v.bound 100) i = 9 :=
      hnine
    rw [htoken]
    exact ⟨_, rfl⟩
  subchannels {s v owner key start c r t ch} hscan hr hsub := by
    obtain ⟨⟨-, hother, hnine⟩, n, -, rfl⟩ := scanOne_ok (scan_oneCore hscan)
    obtain ⟨rfl, rfl⟩ := lookup_oneCursor hr
    refine ⟨0, Nat.one_pos, ?_⟩
    -- the channel has token 9 only
    by_cases ht : t = 9
    · rw [ht]
      exact hnine
    · have hslot : (oneCore (S := S)).subchannelExistsSlot t = 98 := if_neg ht
      have hexists : slotsAt s v.bound ((oneCore (S := S)).subchannelExistsSlot t) ≠ 0 := hsub
      rw [hslot] at hexists
      exact absurd hother hexists
  notes {s v owner key start c r t ch sub} hscan hsaved hr ht := by
    obtain ⟨-, n, hfree, rfl⟩ := scanOne_ok (scan_oneCore hscan)
    obtain ⟨rfl, rfl⟩ := lookup_oneCursor hr
    obtain ⟨rfl, rfl⟩ := lookup_oneToken ht
    rw [resumePoint_reopenCursor] at hfree
    obtain ⟨hle, hall, hzero⟩ := firstFree_spec hfree
    rw [noteEnd_one]
    refine ⟨fun i hi => ?_, hzero⟩
    -- notes below the resume point were found by earlier passes, the others by this one
    rcases Nat.lt_or_ge i (resumePoint start 2 9) with hlt | hge
    · exact hsaved 2 9 i hlt
    · exact hall i hge hi
  complete := complete_oneCore
  total {s v owner key c c' r t sub} hcall hsub _ := by
    obtain ⟨-, n, -, rfl⟩ := scanOne_ok hcall
    obtain ⟨rfl, rfl, rfl⟩ := subCursor_oneCursor hsub
    rw [noteEnd_one]
    exact Or.inl rfl
  json c := by
    have hdigits : Text.digitsValue (Encodable.encode c.code).repr.toList =
        some (Encodable.encode c.code) := by
      rw [Nat.repr, String.toList_ofList]
      exact Text.digitsValue_toDigits _
    show cursorFromJson (cursorToJson c) = .ok c
    rw [cursorFromJson, cursorToJson, hdigits, Option.bind_some, Encodable.encodek, Option.map_some]
    exact congrArg Except.ok c.ofCode_code
  display a b x y h := by
    have hlist : (feltHex a ++ ":" ++ x).toList.takeWhile (· != ':') =
        (feltHex b ++ ":" ++ y).toList.takeWhile (· != ':') :=
      congrArg (fun text : String => text.toList.takeWhile (· != ':')) h
    have heq : (feltHex a).toList = (feltHex b).toList := by
      rw [← takeWhile_colon x, ← takeWhile_colon y]
      exact hlist
    exact hexParser.feltHex_inj (String.toList_inj.mp heq)

end

section

variable {pedersen : Felt → Felt → Felt} {s₀ : MemStore pedersen} {m : String → Option String}
  {n : Nat}

/-- A host with metadata `m`, room for `n` writes, the slots of `s₀` and no note of owner 1. -/
structure Quiet (s₀ : MemStore pedersen) (m : String → Option String) (n : Nat)
    (h : Host (MemStore pedersen)) : Prop where
  metas : ∀ k, metaGet h.store k = m k
  budget : n ≤ h.budget
  notes : ConsumerStore.notes h.store 1 = []
  slotSet : ConsumerStore.fullSlotSetAsOf h.store = ConsumerStore.fullSlotSetAsOf s₀

/-- A write that is reached. -/
theorem triple_quiet_write {f : MemStore pedersen → MemStore pedersen} {m' : String → Option String}
    (hf : ∀ h : Host (MemStore pedersen), Quiet s₀ m n h → Quiet s₀ m' 0 ⟨f h.store, 0, []⟩) :
    Triple (Quiet s₀ m (n + 1)) (write f) (fun _ => Quiet s₀ m' n) fun _ => False := by
  intro h hq
  have hb := hq.budget
  rw [write]
  cases hbudget : h.budget with
  | zero =>
      rw [hbudget] at hb
      cases hb
  | succ b =>
      have hq' := hf h ⟨hq.metas, Nat.le_of_succ_le hb, hq.notes, hq.slotSet⟩
      rw [hbudget] at hb
      exact ⟨hq'.metas, Nat.le_of_succ_le_succ hb, hq'.notes, hq'.slotSet⟩

theorem triple_quiet_metaSet (key value : String) :
    Triple (Quiet s₀ m (n + 1)) (write fun s => metaSet s key value)
      (fun _ => Quiet s₀ (Function.update m key (some value)) n) fun _ => False := by
  refine triple_quiet_write fun h hq => ⟨fun k => ?_, Nat.zero_le _, hq.notes, hq.slotSet⟩
  rw [LawfulStore.metaGet_metaSet, Function.update_apply, hq.metas]

theorem triple_quiet_deleteOwnerNotes :
    Triple (Quiet s₀ m (n + 1)) (write fun s => (ConsumerStore.deleteOwnerNotes s 1).2)
      (fun _ => Quiet s₀ m n) fun _ => False := by
  refine triple_quiet_write fun h hq => ⟨hq.metas, Nat.zero_le _, ?_, hq.slotSet⟩
  have hnone : ((((h.store.notes.filter fun _ n => n.owner != 1).toList.map Prod.snd).filter
      fun n => n.owner == 1)) = [] := by
    refine List.filter_eq_nil_iff.mpr fun row hrow heq => ?_
    obtain ⟨e, he, rfl⟩ := List.mem_map.mp hrow
    rw [Std.ExtTreeMap.toList_filter] at he
    have hne := (List.mem_filter.mp he).2
    rw [bne, heq] at hne
    cases hne
  exact (congrArg (List.mergeSort · MemStore.noteLe) hnone).trans List.mergeSort_nil

/-- The metadata without the cursors of a kind of owner 1. -/
def dropped (kind : Kind) (m : String → Option String) : String → Option String :=
  Function.update (Function.update (Function.update m (keys kind 1).live (some ""))
    (keys kind 1).ckpt (some "")) (keys kind 1).ckptAt (some "")

/-- The metadata after a resync of owner 1. -/
def resynced (m : String → Option String) : String → Option String :=
  Function.update (Function.update (dropped .outgoing (dropped .incoming m))
    ("sdk_" ++ feltHex 1 ++ "_stamp") (some "")) ("sdk_" ++ feltHex 1 ++ "_block") (some "0")

theorem triple_quiet_fullResync :
    Triple (Quiet s₀ m (n + 9)) (fullResync 1) (fun _ => Quiet s₀ (resynced m) n)
      fun _ => False := by
  rw [fullResync]
  have hkind : ∀ {m : String → Option String} {n : Nat} (kind : Kind),
      Triple (Quiet s₀ m (n + 3)) (do
          write fun s => metaSet s (keys kind 1).live ""
          write fun s => metaSet s (keys kind 1).ckpt ""
          write fun s => metaSet s (keys kind 1).ckptAt "")
        (fun _ => Quiet s₀ (dropped kind m) n) fun _ => False := by
    intro m n kind
    exact Triple.bind (triple_quiet_metaSet _ _) fun _ =>
      Triple.bind (triple_quiet_metaSet _ _) fun _ => triple_quiet_metaSet _ _
  refine Triple.bind (M := fun _ => Quiet s₀ (dropped .outgoing (dropped .incoming m)) (n + 3))
    (Triple.bind (hkind .incoming) fun _ => Triple.bind (hkind .outgoing) fun _ =>
      Triple.pure fun _ hq => hq) fun _ => ?_
  exact Triple.bind (triple_quiet_metaSet _ _) fun _ => Triple.bind (triple_quiet_metaSet _ _)
    fun _ => triple_quiet_deleteOwnerNotes

/-- The metadata after the identity check of owner 1 with key 3. -/
def identified (m : String → Option String) : String → Option String :=
  if m (identityKey 1) ≠ some (fingerprint 3) then
    Function.update (resynced m) (identityKey 1) (some (fingerprint 3))
  else m

theorem triple_quiet_checkIdentity :
    Triple (Quiet s₀ m (n + 10)) (checkIdentity 1 3) (fun _ => Quiet s₀ (identified m) n)
      fun _ => False := by
  rw [checkIdentity]
  refine Triple.get fun t => ?_
  by_cases hident : m (identityKey 1) ≠ some (fingerprint 3)
  · by_cases ht : metaGet t.store (identityKey 1) ≠ some (fingerprint 3)
    · rw [if_pos ht, identified, if_pos hident]
      refine Triple.bind ((triple_quiet_fullResync).weaken (fun h hh => hh.2) fun _ _ hq => hq)
        fun _ => triple_quiet_metaSet _ _
    · rintro h ⟨rfl, hq⟩
      rw [hq.metas] at ht
      exact absurd hident ht
  · by_cases ht : metaGet t.store (identityKey 1) ≠ some (fingerprint 3)
    · rintro h ⟨rfl, hq⟩
      rw [hq.metas] at ht
      exact absurd ht hident
    · rw [if_neg ht, identified, if_neg hident]
      refine Triple.pure ?_
      rintro h ⟨-, hq⟩
      exact ⟨hq.metas, Nat.le_trans (Nat.le_add_right n 10) hq.budget, hq.notes, hq.slotSet⟩

/-- The cursor of an incoming scan that finds nothing. -/
def noChannels : DiscoveryCursor := ⟨true, some 0, none, []⟩

theorem Quiet.view_eq {h : Host (MemStore pedersen)} (hq : Quiet s₀ m n h)
    (hbasis : m "snapshot_basis" = none) (bound : Nat) :
    view h.store bound = .ok ⟨bound, historyFloor h.store⟩ := by
  have hnone : metaU64 h.store "snapshot_basis" = none := by
    rw [metaU64, hq.metas, hbasis]
    rfl
  rw [view, checkBoundAboveBasis, hnone]
  rfl

theorem triple_quiet_incomingPass (hbasis : m "snapshot_basis" = none) (bound : Nat)
    (start : DiscoveryCursor) :
    Triple (Quiet s₀ m (n + 1)) (incomingPass oneCore.toDiscoveryCore true 1 3 bound start
        (keys .incoming 1).live)
      (fun _ => Quiet s₀ (Function.update m (keys .incoming 1).live
        (some (cursorToJson noChannels))) n) fun _ => False := by
  rw [incomingPass]
  refine Triple.bind (M := fun _ => Quiet s₀ m (n + 1))
    (fun h hq => ⟨hq.metas, hq.budget, hq.notes, hq.slotSet⟩) fun _ => Triple.get fun t => ?_
  refine Triple.bind (M := fun r h => r = (noChannels, []) ∧ Quiet s₀ m (n + 1) h) ?_ fun r =>
    Triple.of_and fun hr => ?_
  · rintro h ⟨rfl, hq⟩
    have hrun : runIncoming oneCore.toDiscoveryCore h.store bound 1 3 start =
        .ok (noChannels, []) := by
      rw [runIncoming, hq.view_eq hbasis]
      rfl
    rw [hrun]
    exact ⟨rfl, hq⟩
  · subst hr
    refine Triple.bind (M := fun _ => Quiet s₀ m (n + 1)) (Triple.pure fun _ hq => hq) fun _ => ?_
    refine Triple.bind (M := fun _ => Quiet s₀ m (n + 1)) ?_ fun _ => ?_
    · rw [registerScannedNotes]
      exact Triple.read fun t => Triple.pure fun _ hq => hq
    · exact Triple.bind (triple_quiet_metaSet _ _) fun _ => Triple.pure fun _ hq => hq

theorem triple_quiet_outgoingPass (hbasis : m "snapshot_basis" = none) {bound free : Nat}
    {start : DiscoveryCursor}
    (hknown : KnownSlots (slotsAt s₀ bound))
    (hfree : firstFree (slotsAt s₀ bound) 4 (resumePoint start 2 9) = some free) :
    Triple (Quiet s₀ m (n + 1)) (outgoingPass oneCore.toDiscoveryCore true 1 3 bound start
        (keys .outgoing 1).live)
      (fun _ => Quiet s₀ (Function.update m (keys .outgoing 1).live (some (cursorToJson
        (oneCursor (slotsAt s₀ bound 100) (resumePoint start 2 9) free)))) n) fun _ => False := by
  rw [outgoingPass]
  refine Triple.bind (M := fun _ => Quiet s₀ m (n + 1))
    (fun h hq => ⟨hq.metas, hq.budget, hq.notes, hq.slotSet⟩) fun _ => Triple.get fun t => ?_
  refine Triple.bind (M := fun c h => c = oneCursor (slotsAt s₀ bound 100) (resumePoint start 2 9)
    free ∧ Quiet s₀ m (n + 1) h) ?_ fun c => Triple.of_and fun hc => ?_
  · rintro h ⟨rfl, hq⟩
    have hscan : scanOne h.store ⟨bound, historyFloor h.store⟩ (reopenCursor start) =
        .ok (oneCursor (slotsAt s₀ bound 100) (resumePoint start 2 9) free) := by
      rw [scanOne, resumePoint_reopenCursor, slotsAt_congr hq.slotSet, if_neg hknown.not]
      simp only [hfree]
    have hrun : runOutgoing oneCore.toDiscoveryCore h.store bound 1 3 start =
        .ok (oneCursor (slotsAt s₀ bound 100) (resumePoint start 2 9) free) := by
      rw [runOutgoing, hq.view_eq hbasis]
      show outgoingPasses _ _ _ _ _ (999 + 1) _ = _
      rw [outgoingPasses]
      refine bind_eq_ok.mpr ⟨oneCursor (slotsAt s₀ bound 100) (resumePoint start 2 9) free, ?_, rfl⟩
      exact congrArg (Except.mapError _) hscan
    rw [hrun]
    exact ⟨rfl, hq⟩
  · subst hc
    exact Triple.bind (triple_quiet_metaSet _ _) fun _ => Triple.pure fun _ hq => hq

theorem Quiet.metaU64_eq {h : Host (MemStore pedersen)} (hq : Quiet s₀ m n h) (key : String) :
    metaU64 h.store key = (m key).bind Text.parseU64 := by
  rw [metaU64, hq.metas]

/-- The metadata after a discovery of owner 1 that found `c`. -/
def discovered (m : String → Option String) (c : DiscoveryCursor) : String → Option String :=
  Function.update (Function.update (Function.update m (keys .incoming 1).live
    (some (cursorToJson noChannels))) (keys .outgoing 1).live (some (cursorToJson c)))
    (genKey 1) (some "0")

/-- The state of the metadata in which a discovery of owner 1 scans on from `start`. -/
structure Ready (pedersen : Felt → Felt → Felt) (m : String → Option String)
    (start : DiscoveryCursor) : Prop where
  basis : m "snapshot_basis" = none
  generation : m "tail_generation" = none
  stamp : ((m (genKey 1)).bind Text.parseU64).getD 0 = 0
  incoming : ∃ c, startFrom (S := MemStore pedersen) oneCore.toDiscoveryCore
    (m (keys .incoming 1).live) (m (keys .incoming 1).ckpt) = .ok c
  outgoing : startFrom (S := MemStore pedersen) oneCore.toDiscoveryCore
    (m (keys .outgoing 1).live) (m (keys .outgoing 1).ckpt) = .ok start

theorem triple_quiet_readNotes (owner : Felt) :
    Triple (Quiet s₀ m (n + 1)) (readNotes owner) (fun _ => Quiet s₀ m n) fun _ => False := by
  intro h hq
  have hb := hq.budget
  rw [readNotes]
  cases hbudget : h.budget with
  | zero =>
      rw [hbudget] at hb
      cases hb
  | succ b =>
      rw [hbudget] at hb
      exact ⟨hq.metas, Nat.le_of_succ_le_succ hb, hq.notes, hq.slotSet⟩

theorem triple_quiet_discoverStamped {start : DiscoveryCursor} {free : Nat}
    {outcome : ApplyOutcome} (hready : Ready pedersen (identified m) start)
    (hknown : KnownSlots (slotsAt s₀ outcome.head))
    (hfree : firstFree (slotsAt s₀ outcome.head) 4 (resumePoint start 2 9) = some free) :
    Triple (Quiet s₀ m (n + 13))
      (discoverStamped oneCore.toDiscoveryCore 1 3 outcome "rpc-verified")
      (fun _ => Quiet s₀ (discovered (identified m) (oneCursor (slotsAt s₀ outcome.head 100)
        (resumePoint start 2 9) free)) n) fun _ => False := by
  have hgen : ∀ {h : Host (MemStore pedersen)} {n : Nat}, Quiet s₀ (identified m) n h →
      ConsumerStore.tailGeneration h.store = 0 := by
    intro h n hq
    rw [SharedStore.tailGeneration_eq, generation, hq.metaU64_eq, hready.generation]
    rfl
  rw [discoverStamped]
  refine Triple.bind triple_quiet_checkIdentity fun _ => Triple.get fun t => ?_
  by_cases ht : Quiet s₀ (identified m) (n + 3) t
  swap
  · rintro h ⟨rfl, hq⟩
    exact absurd hq ht
  rw [hgen ht]
  refine Triple.bind (M := fun _ => Quiet s₀ (identified m) (n + 3)) ?_ fun rewound => ?_
  · rintro h ⟨-, hq⟩
    -- same generation: nothing is rewound
    have hsame : ¬ ownerGeneration h.store 1 ≠ 0 := by
      rw [ownerGeneration, hq.metaU64_eq, not_not]
      exact hready.stamp
    rw [rewindLive, Effect.get_bind, if_neg hsame]
    exact hq
  refine Triple.bind (M := fun _ => Quiet s₀ (identified m) (n + 3)) ?_ fun _ => ?_
  · -- at a verified head there is no pass up to a checkpoint
    rw [checkpointPass, if_neg (by simp)]
    exact Triple.pure fun _ hq => hq
  -- the incoming live pass, from the saved cursor
  obtain ⟨cin, hcin⟩ := hready.incoming
  refine Triple.get fun t₁ => Triple.bind (M := fun c h => c = cin ∧ Quiet s₀ (identified m) (n + 3) h)
    ?_ fun c => Triple.of_and fun _ => ?_
  · rintro h ⟨rfl, hq⟩
    rw [liveStart_eq, hq.metas, hq.metas, hcin]
    exact ⟨rfl, hq⟩
  refine Triple.bind (triple_quiet_incomingPass hready.basis outcome.head c) fun _ => ?_
  -- the outgoing live pass; saving the incoming cursor has not touched its own
  refine Triple.get fun t₂ => Triple.bind (M := fun c h => c = start ∧ Quiet s₀ (Function.update
    (identified m) (keys .incoming 1).live (some (cursorToJson noChannels))) (n + 2) h) ?_ fun c =>
    Triple.of_and fun hc => ?_
  · rintro h ⟨rfl, hq⟩
    have hlive : (keys .outgoing 1).live ≠ (keys .incoming 1).live := fun heq =>
      absurd (live_inj heq) (by decide)
    rw [liveStart_eq, hq.metas, hq.metas, Function.update_of_ne hlive,
      Function.update_of_ne (ckpt_ne_live .outgoing .incoming 1), hready.outgoing]
    exact ⟨rfl, hq⟩
  subst hc
  have hbasis : Function.update (identified m) (keys .incoming 1).live
      (some (cursorToJson noChannels)) "snapshot_basis" = none := by
    rw [Function.update_of_ne (by decide), hready.basis]
  refine Triple.bind (triple_quiet_outgoingPass hbasis hknown hfree) fun _ => ?_
  refine Triple.bind (M := fun _ => Quiet s₀ (Function.update (Function.update (identified m)
    (keys .incoming 1).live (some (cursorToJson noChannels))) (keys .outgoing 1).live
      (some (cursorToJson (oneCursor (slotsAt s₀ outcome.head 100) (resumePoint c 2 9) free))))
      (n + 1)) ?_ fun newlySpent => ?_
  · intro h hq
    rw [refreshSpent, Effect.get_bind, Effect.get_bind, hq.notes]
    exact hq
  exact Triple.bind (triple_quiet_metaSet _ _) fun _ => Triple.pure fun _ hq => hq

theorem triple_quiet_discoverState {start : DiscoveryCursor} {free : Nat} {outcome : ApplyOutcome}
    (hready : Ready pedersen (identified m) start)
    (hknown : KnownSlots (slotsAt s₀ outcome.head))
    (hfree : firstFree (slotsAt s₀ outcome.head) 4 (resumePoint start 2 9) = some free) :
    Triple (Quiet s₀ m (n + 14))
      (discoverState oneCore.toDiscoveryCore 1 3 outcome "rpc-verified")
      (fun _ => Quiet s₀ (discovered (identified m) (oneCursor (slotsAt s₀ outcome.head 100)
        (resumePoint start 2 9) free)) n) fun _ => False := by
  rw [discoverState]
  exact Triple.bind (triple_quiet_discoverStamped hready hknown hfree) fun _ =>
    Triple.bind (triple_quiet_readNotes 1) fun _ => Triple.pure fun _ hq => hq

/-- The metadata after the report of a discovery. -/
def reported (m : String → Option String) (cp : TrustedCheckpoint) (stamp report : String) :
    String → Option String :=
  Function.update (Function.update (Function.update m (cacheKey 1) (some report))
    (cacheKey 1 ++ "_stamp") (some stamp)) (cacheKey 1 ++ "_block") (some cp.blockNumber.repr)

/-- A discovery of owner 1 at a checkpoint that is neither cached nor below the last one. -/
theorem discover_runs {start : DiscoveryCursor} {free : Nat} {s : MemStore pedersen}
    {cp : TrustedCheckpoint} (hq : Quiet s₀ m 17 ⟨s, 17, []⟩)
    (hcp : checkpoint oneCore s = .ok cp)
    (hstamp : m (cacheKey 1 ++ "_stamp") ≠ some (sdkStamp (S := MemStore pedersen) oneCore cp 0 3))
    (hblock : ((m (cacheKey 1 ++ "_block")).bind Text.parseU64).getD 0 ≤ cp.blockNumber)
    (hgen : m "tail_generation" = none) (hready : Ready pedersen (identified m) start)
    (hknown : KnownSlots (slotsAt s₀ cp.blockNumber))
    (hfree : firstFree (slotsAt s₀ cp.blockNumber) 4 (resumePoint start 2 9) = some free) :
    ∃ report h', sdkDiscover oneCore 1 3 ⟨s, 17, []⟩ = .ok report h' ∧
      Quiet s₀ (reported (discovered (identified m) (oneCursor (slotsAt s₀ cp.blockNumber 100)
        (resumePoint start 2 9) free)) cp (sdkStamp (S := MemStore pedersen) oneCore cp 0 3) report)
        0 h' := by
  have hzero : ConsumerStore.tailGeneration s = 0 := by
    rw [SharedStore.tailGeneration_eq, generation]
    have := hq.metaU64_eq "tail_generation"
    rw [hgen] at this
    rw [this]
    rfl
  have hlow : ¬ cp.blockNumber < metaNumber s (cacheKey 1 ++ "_block") := by
    have := hq.metaU64_eq (cacheKey 1 ++ "_block")
    rw [metaNumber, this]
    exact Nat.not_lt.mpr hblock
  have hne : ¬ metaGet s (cacheKey 1 ++ "_stamp") =
      some (sdkStamp (S := MemStore pedersen) oneCore cp 0 3) := by
    have hm := hq.metas (cacheKey 1 ++ "_stamp")
    exact fun heq => hstamp (hm.symm.trans heq)
  have htotal : Triple (fun h : Host (MemStore pedersen) => h.store = s ∧ Quiet s₀ m 17 h)
      (freshDiscover oneCore 1 3 cp (sdkStamp (S := MemStore pedersen) oneCore cp 0 3))
      (fun report => Quiet s₀ (reported (discovered (identified m) (oneCursor
        (slotsAt s₀ cp.blockNumber 100) (resumePoint start 2 9) free)) cp
        (sdkStamp (S := MemStore pedersen) oneCore cp 0 3) report) 0) fun _ => False := by
    rw [freshDiscover]
    refine Triple.bind (M := fun _ => Quiet s₀ m 17) ?_ fun _ => Triple.read fun t => ?_
    · -- the checkpoint is not below the last one: no resync
      rintro h ⟨rfl, hh⟩
      rw [resyncAbove, Effect.get_bind, if_neg hlow]
      exact hh
    refine Triple.bind (M := fun _ => Quiet s₀ (discovered (identified m) (oneCursor
      (slotsAt s₀ cp.blockNumber 100) (resumePoint start 2 9) free)) 3)
      (triple_quiet_discoverState hready hknown hfree) fun report => Triple.get fun t => ?_
    refine Triple.bind (M := fun incoming => Quiet s₀ (discovered (identified m) (oneCursor
      (slotsAt s₀ cp.blockNumber 100) (resumePoint start 2 9) free)) 3) ?_ fun incoming =>
      Triple.get fun t => ?_
    · rintro h ⟨rfl, hh⟩
      -- the incoming cursor read back is the one the live pass saved
      have hlive : discovered (identified m) (oneCursor (slotsAt s₀ cp.blockNumber 100)
          (resumePoint start 2 9) free) (keys .incoming 1).live =
            some (cursorToJson noChannels) := by
        rw [discovered, Function.update_of_ne (live_ne_genKey .incoming 1), Function.update_of_ne
          (fun heq => absurd (live_inj heq) (by decide)), Function.update_self]
      have hcursor : sdkCursor oneCore h.store .incoming 1 = .ok noChannels := by
        rw [sdkCursor, hh.metas, hlive, Option.getD_some, decodeCursor]
        exact congrArg (Except.mapError _) (counts_oneCore.json noChannels)
      rw [hcursor]
      exact hh
    refine Triple.bind (M := fun _ => Quiet s₀ (discovered (identified m) (oneCursor
      (slotsAt s₀ cp.blockNumber 100) (resumePoint start 2 9) free)) 3) ?_ fun notes => ?_
    · rintro h ⟨rfl, hh⟩
      rw [hh.notes]
      exact hh
    exact Triple.bind (triple_quiet_metaSet _ _) fun _ => Triple.bind (triple_quiet_metaSet _ _)
      fun _ => Triple.bind (triple_quiet_metaSet _ _) fun _ => Triple.pure fun _ hh => hh
  obtain ⟨report, h', hrun, hdone⟩ := htotal.total ⟨rfl, hq⟩
  refine ⟨report, h', ?_, hdone⟩
  rw [sdkDiscover, Effect.get_bind]
  refine Effect.lift_bind_ok.mpr ⟨cp, hcp, ?_⟩
  simp only [hzero, if_neg hne]
  exact hrun

/-! ### Two discoveries of one note -/

/-- A mirror at block 10 with one note to recipient 2. -/
def oneNote : MemStore Mpt.onePedersen :=
  (MemStore.new Mpt.onePedersen).installSnapshot
    [⟨100, 7, 5⟩, ⟨101, 1, 5⟩, ⟨103, 9, 5⟩, ⟨104, 1, 5⟩, ⟨200, 4, 5⟩] [("verified_checkpoint", "ten")]

theorem oneNote_slots : ∀ block ∈ [10, 11], slotsAt oneNote block 100 = 7 ∧
    slotsAt oneNote block 101 = 1 ∧ slotsAt oneNote block 102 = 0 ∧ slotsAt oneNote block 103 = 9 ∧
    slotsAt oneNote block 200 = 4 ∧ slotsAt oneNote block 201 = 0 := by
  decide +kernel

theorem oneNote_known {block : Nat} (hblock : block ∈ [10, 11]) :
    KnownSlots (slotsAt oneNote block) := by
  have hall : ∀ block ∈ [10, 11], slotsAt oneNote block 97 = 0 ∧ slotsAt oneNote block 98 = 0 := by
    decide +kernel
  obtain ⟨hrecipients, htokens⟩ := hall block hblock
  obtain ⟨-, -, -, hnine, -⟩ := oneNote_slots block hblock
  exact ⟨hrecipients, htokens, hnine⟩

theorem feltHex_one : feltHex 1 = "0x1" := by decide

/-- The metadata of `oneNote`. -/
def oneMetas : String → Option String :=
  Function.update (fun _ => none) "verified_checkpoint" (some "ten")

theorem quiet_oneNote : Quiet oneNote oneMetas 17 ⟨oneNote, 17, []⟩ := by
  refine ⟨fun k => ?_, Nat.le_refl _, ?_, rfl⟩
  · have hmeta := LawfulStore.metaGet_installSnapshot (MemStore.new Mpt.onePedersen)
      [⟨100, 7, 5⟩, ⟨101, 1, 5⟩, ⟨103, 9, 5⟩, ⟨104, 1, 5⟩, ⟨200, 4, 5⟩] [("verified_checkpoint", "ten")] k
    rw [(MemStore.fresh_new Mpt.onePedersen).metas] at hmeta
    refine hmeta.trans ?_
    rw [oneMetas, Function.update_apply]
    rfl
  · have hnotes : oneNote.notes = ∅ := rfl
    show MemStore.ownerNotes oneNote 1 = []
    rw [MemStore.ownerNotes, hnotes]
    exact List.mergeSort_nil

/-- The cursor of the first scan. -/
def firstCursor : DiscoveryCursor := oneCursor 7 0 1

/-- The cursor of a scan that resumes behind the note. -/
def secondCursor : DiscoveryCursor := oneCursor 7 1 1

def tenCheckpoint : TrustedCheckpoint := ⟨"SN_MAIN", 0, 10, 1, 0⟩

def elevenCheckpoint : TrustedCheckpoint := ⟨"SN_MAIN", 0, 11, 2, 0⟩

theorem ready_first : Ready Mpt.onePedersen (identified oneMetas) .default := by
  refine ⟨?_, ?_, ?_, ⟨.default, ?_⟩, ?_⟩
  all_goals simp [identified, resynced, dropped, oneMetas, keys, Kind.name, genKey, identityKey,
    feltHex_one, startFrom_dropped]

/-- The metadata after the first discovery, at the next checkpoint. -/
def movedMetas (report : String) : String → Option String :=
  Function.update (reported (discovered (identified oneMetas) firstCursor) tenCheckpoint
    (sdkStamp (S := MemStore Mpt.onePedersen) oneCore tenCheckpoint 0 3) report)
    "verified_checkpoint" (some "eleven")

theorem identified_moved (report : String) : identified (movedMetas report) = movedMetas report := by
  refine if_neg (not_not.mpr ?_)
  simp [movedMetas, reported, discovered, identified, oneMetas, keys, Kind.name, genKey, identityKey,
    cacheKey, feltHex_one]

theorem cursorToJson_ne (c : DiscoveryCursor) : cursorToJson c ≠ "" := by
  intro hnil
  have hlist := congrArg String.toList hnil
  rw [cursorToJson, Nat.repr, String.toList_ofList] at hlist
  exact Nat.toDigits_ne_nil hlist

theorem startFrom_saved (c : DiscoveryCursor) (ckpt : Option String) :
    startFrom (S := MemStore Mpt.onePedersen) oneCore.toDiscoveryCore (some (cursorToJson c)) ckpt =
      .ok c := by
  have hkeep : (some (cursorToJson c)).filter (fun text => decide (text ≠ "")) =
      some (cursorToJson c) := by
    simp [cursorToJson_ne]
  rw [startFrom, hkeep]
  exact congrArg (Except.mapError _) (counts_oneCore.json c)

theorem ready_second (report : String) :
    Ready Mpt.onePedersen (identified (movedMetas report)) firstCursor := by
  rw [identified_moved]
  have hlive : movedMetas report (keys .outgoing 1).live = some (cursorToJson firstCursor) := by
    simp [movedMetas, reported, discovered, keys, Kind.name, genKey, cacheKey, feltHex_one]
  have hin : movedMetas report (keys .incoming 1).live = some (cursorToJson noChannels) := by
    simp [movedMetas, reported, discovered, keys, Kind.name, genKey, cacheKey, feltHex_one]
  refine ⟨?_, ?_, ?_, ⟨noChannels, ?_⟩, ?_⟩
  · simp [movedMetas, reported, discovered, identified, resynced, dropped, oneMetas, keys, Kind.name,
      genKey, identityKey, cacheKey, feltHex_one]
  · simp [movedMetas, reported, discovered, identified, resynced, dropped, oneMetas, keys, Kind.name,
      genKey, identityKey, cacheKey, feltHex_one]
  · have hzero : movedMetas report (genKey 1) = some (0).repr := by
      simp [movedMetas, reported, discovered, keys, Kind.name, genKey, cacheKey, feltHex_one]
      rfl
    rw [hzero, Option.bind_some, Text.parseU64_repr (by decide)]
    rfl
  · rw [hin, startFrom_saved]
  · rw [hlive, startFrom_saved]

/-- The slots of the note and the one behind it, at either checkpoint. -/
theorem firstFree_oneNote {block : Nat} (hblock : block ∈ [10, 11]) :
    firstFree (slotsAt oneNote block) 4 0 = some 1 ∧
      firstFree (slotsAt oneNote block) 4 1 = some 1 := by
  obtain ⟨-, -, -, -, hnote, hnext⟩ := oneNote_slots block hblock
  have hzero : ¬ slotsAt oneNote block (Fin.ofNat STARK_PRIME (200 + 0)) = 0 := by
    show ¬ slotsAt oneNote block 200 = 0
    rw [hnote]
    decide
  have hone : slotsAt oneNote block (Fin.ofNat STARK_PRIME (200 + 1)) = 0 := hnext
  constructor
  · rw [firstFree, if_neg hzero, firstFree, if_pos hone]
  · rw [firstFree, if_pos hone]

theorem checkpoint_of_metas {s : MemStore Mpt.onePedersen} (text : String) {cp : TrustedCheckpoint}
    (hfailed : metaGet s "verification_failed" = none)
    (htext : metaGet s "verified_checkpoint" = some text)
    (hcp : (oneCore (S := MemStore Mpt.onePedersen)).readCheckpoint text = .ok cp) :
    checkpoint oneCore s = .ok cp := by
  rw [checkpoint, hfailed, if_neg (by decide), htext]
  exact congrArg (Except.mapError _) hcp

/-- The first discovery finds the note. -/
theorem first_discovers : ∃ report h',
    sdkDiscover oneCore 1 3 ⟨oneNote, 17, []⟩ = .ok report h' ∧
      Quiet oneNote (reported (discovered (identified oneMetas) firstCursor) tenCheckpoint
        (sdkStamp (S := MemStore Mpt.onePedersen) oneCore tenCheckpoint 0 3) report) 0 h' := by
  have hmetas := quiet_oneNote.metas
  have hcp : checkpoint oneCore oneNote = .ok tenCheckpoint :=
    checkpoint_of_metas "ten" (hmetas _) (hmetas _) rfl
  have hruns := discover_runs quiet_oneNote hcp (by simp [oneMetas, cacheKey, feltHex_one])
    (by simp [oneMetas, cacheKey, feltHex_one]) (by simp [oneMetas]) ready_first
    (oneNote_known (by decide)) (firstFree_oneNote (by decide)).1
  have hslot : slotsAt oneNote tenCheckpoint.blockNumber 100 = 7 := (oneNote_slots 10 (by decide)).1
  rw [hslot] at hruns
  exact hruns

/-- What `channels` reports of the saved cursor. -/
theorem channels_oneNote {s : MemStore Mpt.onePedersen} (text : String) (cp : TrustedCheckpoint)
    (resume : Nat) (hfailed : metaGet s "verification_failed" = none)
    (htext : metaGet s "verified_checkpoint" = some text)
    (hcp : (oneCore (S := MemStore Mpt.onePedersen)).readCheckpoint text = .ok cp)
    (hblock : cp.blockNumber ∈ [10, 11])
    (hlive : metaGet s (keys .outgoing 1).live = some (cursorToJson (oneCursor 7 resume 1)))
    (hslots : slotsAt s = slotsAt oneNote) :
    sdkChannels oneCore s 1 3 none =
      .ok ⟨cp.blockNumber, 1, [⟨2, 7, some 7, [(9, 0, 1 - resume)]⟩]⟩ := by
  obtain ⟨hkey, hfound, hsalt, htoken, -⟩ := oneNote_slots cp.blockNumber hblock
  rw [← hslots] at hkey hfound hsalt htoken
  have hcursor : sdkCursor oneCore s .outgoing 1 = .ok (oneCursor 7 resume 1) := by
    rw [sdkCursor, hlive, Option.getD_some, decodeCursor]
    exact congrArg (Except.mapError _) (counts_oneCore.json _)
  have htokens : channelTokens oneCore s cp.blockNumber 7 ⟨7, true, some 0,
      [(9, ⟨true, some (1 - resume), some 0⟩)]⟩ = .ok [(9, 0, 1 - resume)] := by
    refine (List.mapM_cons).trans (bind_eq_ok.mpr ⟨(9, 0, 1 - resume), ?_, rfl⟩)
    have hnine : tokenAt (oneCore (S := MemStore Mpt.onePedersen)) (slotsAt s cp.blockNumber) 7 0 = 9 :=
      htoken
    have hsub : (⟨7, true, some 0, [(9, ⟨true, some (1 - resume), some 0⟩)]⟩ :
        ChannelCursor).subchannels.lookup (tokenAt (oneCore (S := MemStore Mpt.onePedersen))
          (slotsAt s cp.blockNumber) 7 0) = some ⟨true, some (1 - resume), some 0⟩ := by
      rw [hnine]
      rfl
    rw [channelToken_of_lookup hsub, hnine]
    rfl
  have hchannel : sdkChannel oneCore s cp.blockNumber 1 3 (oneCursor 7 resume 1) 2 =
      .ok (some ⟨2, 7, some 7, [(9, 0, 1 - resume)]⟩) := by
    have hne : ¬ slotsAt s cp.blockNumber 100 = 0 := by
      rw [hkey]
      decide
    have hmark : decide (slotsAt s cp.blockNumber 101 ≠ 0) = true := by
      rw [hfound]
      decide
    refine (if_neg hne).trans (bind_eq_ok.mpr ⟨[(9, 0, 1 - resume)], ?_, ?_⟩)
    · show channelTokens oneCore s cp.blockNumber (slotsAt s cp.blockNumber 100) _ = _
      rw [hkey]
      exact htokens
    · show (Except.ok (some ⟨2, slotsAt s cp.blockNumber 100, if decide (slotsAt s cp.blockNumber
        101 ≠ 0) = true then some (slotsAt s cp.blockNumber 100) else none, _⟩) :
          Except Failure (Option SdkChannel)) = _
      rw [hkey, hmark]
      rfl
  refine bind_eq_ok.mpr ⟨cp, checkpoint_of_metas text hfailed htext hcp,
    bind_eq_ok.mpr ⟨_, hcursor, bind_eq_ok.mpr
      ⟨[some ⟨2, 7, some 7, [(9, 0, 1 - resume)]⟩], ?_, rfl⟩⟩⟩
  show ([(2 : Felt)].mergeSort fun a b => a.val ≤ b.val).dedup.mapM _ = _
  rw [List.mergeSort_singleton]
  show [(2 : Felt)].mapM _ = _
  rw [List.mapM_cons, hchannel]
  rfl

/-- The note of `oneNote`, at either checkpoint. -/
theorem holdsNotes_oneNote (block : Nat) (hblock : block ∈ [10, 11]) :
    HoldsNotes (oneCore (S := MemStore Mpt.onePedersen)).toDiscoveryCore (slotsAt oneNote block)
      7 9 1 := by
  obtain ⟨-, hall, hfree⟩ := firstFree_spec (firstFree_oneNote hblock).1
  exact ⟨fun i hi => hall i (Nat.zero_le i) hi, hfree⟩

/-- From nothing the engine makes one call, and that from the first note. -/
theorem fromFirstNote_default (s : MemStore Mpt.onePedersen) (bound : Nat) :
    FromFirstNote (oneCore (S := MemStore Mpt.onePedersen)).toDiscoveryCore 1 3 s bound
      .default := by
  intro s' v _ _ c hc
  have honce : c = reopenCursor .default := by
    induction hc with
    | first => rfl
    | next h hcall hopen ih =>
        obtain ⟨-, n, -, rfl⟩ := scanOne_ok hcall
        cases hopen
  rw [honce]
  exact fun r t => rfl

theorem meets_oneNote : Meets oneCore 1 3 false oneNote := by
  have hmetas := quiet_oneNote.metas
  intro cp _
  constructor
  · rintro ⟨hstamp, -⟩
    have hnone : metaGet oneNote (cacheKey 1 ++ "_stamp") = none := by
      rw [hmetas]
      simp [oneMetas, cacheKey, feltHex_one]
    rw [hnone] at hstamp
    cases hstamp
  · intro _ start hstart
    have hident : metaGet oneNote (identityKey 1) ≠ some (fingerprint 3) := by
      rw [hmetas]
      simp [oneMetas, identityKey, feltHex_one]
    rw [resumeCursor, if_pos (Or.inr hident)] at hstart
    rw [← Except.ok.inj hstart]
    exact fromFirstNote_default _ _

end

/-! ## The offered nonce -/

section

variable {S : Type} [SharedStore S]

/-- **The offered nonce is the next free index.** In every run of an owner's discoveries on
one store, each at a verified checkpoint and with no engine call of its outgoing scan
starting behind a note, `channels` lists every open subchannel and offers the number of
notes it holds at the checkpoint's block. -/
theorem noteNonce_next_free {core : SdkCore S} (hcore : Counts core) {owner : Felt} {K : Set Felt}
    (hK : Set.InjOn fingerprint K) {chain : Felt → Felt → Felt} {s : S} {trusted : Bool}
    (h : NonceRun core owner K chain s trusted) {key : Felt} (hkey : key ∈ K)
    (hverified : Verified core chain s) (hmeets : Meets core owner key trusted s) {budget : Nat}
    {report : String} {h' : Host S}
    (hrun : sdkDiscover core owner key ⟨s, budget, []⟩ = .ok report h') :
    NextFree core owner key h'.store :=
  (discover_right hcore hK (h.cacheRight hcore hK) hkey hverified hmeets hrun).1

end

theorem noteNonce_next_free_one : ∃ report h',
    sdkDiscover oneCore 1 3 ⟨oneNote, 17, []⟩ = .ok report h' ∧
      sdkChannels oneCore h'.store 1 3 none = .ok ⟨10, 1, [⟨2, 7, some 7, [(9, 0, 1)]⟩]⟩ ∧
      NextFree oneCore 1 3 h'.store := by
  obtain ⟨report, h', hrun, hq⟩ := first_discovers
  have hmetas := hq.metas
  have hcp : checkpoint oneCore oneNote = .ok tenCheckpoint :=
    checkpoint_of_metas "ten" (quiet_oneNote.metas _) (quiet_oneNote.metas _) rfl
  have hverified : Verified oneCore (fun _ => slotsAt oneNote 10) oneNote := by
    intro cp hcp'
    rw [hcp] at hcp'
    rw [← Except.ok.inj hcp']
    rfl
  refine ⟨report, h', hrun, ?_, noteNonce_next_free counts_oneCore (K := {3})
    (Set.injOn_singleton _ _) (.start oneNote) rfl hverified meets_oneNote hrun⟩
  refine channels_oneNote "ten" tenCheckpoint 0 ?_ ?_ rfl (by decide)
    ?_ (slotsAt_congr hq.slotSet)
  all_goals
    rw [hmetas]
    simp [reported, discovered, identified, resynced, dropped, oneMetas, keys, Kind.name, genKey,
      identityKey, cacheKey, feltHex_one, firstCursor]

/-- A second discovery, at a later checkpoint and with no note in between, offers index `0`
again: the slot of the note that is there. -/
theorem resumed_nonce_short : Counts (oneCore (S := MemStore Mpt.onePedersen)) ∧
    ∃ report₁ h₁ report₂ h₂,
      sdkDiscover oneCore 1 3 ⟨oneNote, 17, []⟩ = .ok report₁ h₁ ∧
      sdkDiscover oneCore 1 3 ⟨metaSet h₁.store "verified_checkpoint" "eleven", 17, []⟩ =
        .ok report₂ h₂ ∧
      sdkChannels oneCore h₂.store 1 3 none = .ok ⟨11, 1, [⟨2, 7, some 7, [(9, 0, 0)]⟩]⟩ ∧
      HoldsNotes (oneCore (S := MemStore Mpt.onePedersen)).toDiscoveryCore
        (slotsAt h₂.store 11) 7 9 1 ∧
      ¬ NextFree oneCore 1 3 h₂.store := by
  refine ⟨counts_oneCore, ?_⟩
  obtain ⟨report₁, h₁, hrun₁, hq₁⟩ := first_discovers
  have hq : Quiet oneNote (movedMetas report₁) 17
      ⟨metaSet h₁.store "verified_checkpoint" "eleven", 17, []⟩ := by
    refine ⟨fun k => ?_, Nat.le_refl _, hq₁.notes, hq₁.slotSet⟩
    rw [LawfulStore.metaGet_metaSet, hq₁.metas, movedMetas, Function.update_apply]
  -- the checkpoint has moved on, so the second call scans
  have hcp : checkpoint oneCore (metaSet h₁.store "verified_checkpoint" "eleven") =
      .ok elevenCheckpoint := by
    refine checkpoint_of_metas "eleven" ?_ ?_ rfl
    all_goals
      rw [hq.metas]
      simp [movedMetas, reported, discovered, identified, resynced, dropped, oneMetas, keys,
        Kind.name, genKey, identityKey, cacheKey, feltHex_one]
  have hstamp : movedMetas report₁ (cacheKey 1 ++ "_stamp") ≠
      some (sdkStamp (S := MemStore Mpt.onePedersen) oneCore elevenCheckpoint 0 3) := by
    intro heq
    have hten : movedMetas report₁ (cacheKey 1 ++ "_stamp") =
        some (sdkStamp (S := MemStore Mpt.onePedersen) oneCore tenCheckpoint 0 3) := by
      simp [movedMetas, reported, cacheKey, feltHex_one]
    rw [hten, Option.some.injEq] at heq
    exact absurd (sdkStamp_inj counts_oneCore heq).1 (by decide)
  have hblock : ((movedMetas report₁ (cacheKey 1 ++ "_block")).bind Text.parseU64).getD 0 ≤
      elevenCheckpoint.blockNumber := by
    have hten : movedMetas report₁ (cacheKey 1 ++ "_block") = some (10).repr := by
      simp [movedMetas, reported, cacheKey, feltHex_one, tenCheckpoint]
    rw [hten, Option.bind_some, Text.parseU64_repr (by decide)]
    decide
  -- it resumes at the note it has and finds slot 1 free
  have hfree : firstFree (slotsAt oneNote elevenCheckpoint.blockNumber) 4
      (resumePoint firstCursor 2 9) = some 1 := (firstFree_oneNote (by decide)).2
  have hslot : slotsAt oneNote elevenCheckpoint.blockNumber 100 = 7 :=
    (oneNote_slots 11 (by decide)).1
  obtain ⟨report₂, h₂, hrun₂, hq₂⟩ := discover_runs hq hcp hstamp hblock
    (by simp [movedMetas, reported, discovered, identified, resynced, dropped, oneMetas, keys,
      Kind.name, genKey, identityKey, cacheKey, feltHex_one]) (ready_second report₁)
      (oneNote_known (by decide)) hfree
  rw [hslot] at hq₂
  have hsame : slotsAt h₂.store = slotsAt oneNote := slotsAt_congr hq₂.slotSet
  have hreport : sdkChannels oneCore h₂.store 1 3 none =
      .ok ⟨11, 1, [⟨2, 7, some 7, [(9, 0, 0)]⟩]⟩ := by
    refine channels_oneNote "eleven" elevenCheckpoint 1 ?_ ?_ rfl
      (by decide) ?_ hsame
    all_goals
      rw [hq₂.metas, identified_moved]
      simp [movedMetas, reported, discovered, identified, resynced, dropped, oneMetas, keys,
        Kind.name, genKey, identityKey, cacheKey, feltHex_one]
    rfl
  have hholds := holdsNotes_oneNote 11 (by decide)
  rw [← hsame] at hholds
  refine ⟨report₁, h₁, report₂, h₂, hrun₁, hrun₂, hreport, hholds, fun hnext => ?_⟩
  -- the nonce reported is 0, the next free one is 1
  have hwrong := hnext.nonce none _ hreport _ (List.mem_singleton_self _) _ (List.mem_singleton_self _)
  exact absurd (hwrong.unique hholds) (by decide)

end Strk20.Consumer
