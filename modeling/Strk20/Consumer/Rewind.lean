import Strk20.Consumer.Shared

/-!
# What a discovery does to the store

`discoverState` writes keys of its own owner and the note registry, and nothing
else. On a generation its stamp is behind of, every engine run finds the
owner's live cursor discarded, and a live run starts from the checkpoint. The
stamp is the last write: a discovery stopped before it leaves it as it was, and one
that came to it has entered both live runs, whether or not its notes are read after.
-/

namespace Strk20.Consumer

open Feed
open Effect (lift Triple)

/-! ## Keys -/

/-- Texts that part before either ends do not meet again. -/
theorem append_ne {p q : String} (x y : String)
    (h : ¬ (p.toList <+: q.toList) ∧ ¬ (q.toList <+: p.toList)) : p ++ x ≠ q ++ y := by
  intro heq
  have hlist : p.toList ++ x.toList = q.toList ++ y.toList := by
    rw [← String.toList_append, ← String.toList_append, heq]
  rcases List.prefix_or_prefix_of_prefix (List.prefix_append p.toList x.toList)
    (hlist ▸ List.prefix_append q.toList y.toList) with hpre | hpre
  · exact h.1 hpre
  · exact h.2 hpre

/-- The keys a discovery writes for its owner. -/
def ownKeys (owner : Felt) : List String :=
  [(keys .incoming owner).live, (keys .incoming owner).ckpt, (keys .incoming owner).ckptAt,
    (keys .outgoing owner).live, (keys .outgoing owner).ckpt, (keys .outgoing owner).ckptAt,
    "sdk_" ++ feltHex owner ++ "_stamp", "sdk_" ++ feltHex owner ++ "_block", identityKey owner,
    genKey owner]

theorem genKey_inj {a b : Felt} (h : genKey a = genKey b) : a = b := by
  have hlist : "gen_".toList ++ (feltHex a).toList = "gen_".toList ++ (feltHex b).toList := by
    rw [← String.toList_append, ← String.toList_append]
    exact congrArg String.toList h
  exact hexParser.feltHex_inj (String.toList_inj.mp (List.append_cancel_left hlist))

/-- A key that is not the stamp, by its first letters. -/
theorem ne_genKey {p x : String} (owner : Felt)
    (h : ¬ (p.toList <+: "gen_".toList) ∧ ¬ ("gen_".toList <+: p.toList)) :
    p ++ x ≠ genKey owner :=
  append_ne x (feltHex owner) h

theorem live_ne_genKey (kind : Kind) (owner : Felt) : (keys kind owner).live ≠ genKey owner := by
  cases kind <;> exact ne_genKey owner (by decide)

theorem ckpt_ne_genKey (kind : Kind) (owner : Felt) : (keys kind owner).ckpt ≠ genKey owner := by
  cases kind <;> exact ne_genKey owner (by decide)

theorem ckptAt_ne_genKey (kind : Kind) (owner : Felt) :
    (keys kind owner).ckptAt ≠ genKey owner := by
  cases kind <;> exact ne_genKey owner (by decide)

theorem ckpt_ne_live (kind kind' : Kind) (owner : Felt) :
    (keys kind owner).ckpt ≠ (keys kind' owner).live := by
  cases kind <;> cases kind' <;> exact append_ne _ _ (by decide)

theorem ckptAt_ne_live (kind kind' : Kind) (owner : Felt) :
    (keys kind owner).ckptAt ≠ (keys kind' owner).live := by
  cases kind <;> cases kind' <;> exact append_ne _ _ (by decide)

theorem live_inj {kind kind' : Kind} {owner : Felt}
    (h : (keys kind owner).live = (keys kind' owner).live) : kind = kind' := by
  cases kind <;> cases kind'
  · rfl
  · exact absurd h (append_ne _ _ (by decide))
  · exact absurd h (append_ne _ _ (by decide))
  · rfl

theorem live_mem_ownKeys (kind : Kind) (owner : Felt) : (keys kind owner).live ∈ ownKeys owner := by
  cases kind <;> simp [ownKeys]

theorem ckpt_mem_ownKeys (kind : Kind) (owner : Felt) : (keys kind owner).ckpt ∈ ownKeys owner := by
  cases kind <;> simp [ownKeys]

theorem ckptAt_mem_ownKeys (kind : Kind) (owner : Felt) :
    (keys kind owner).ckptAt ∈ ownKeys owner := by
  cases kind <;> simp [ownKeys]

/-- A key outside of every owner's, by its first letters. -/
theorem not_mem_ownKeys {key : String} (owner : Felt)
    (h : ∀ p ∈ ["cur_in_", "ckpt_in_", "ckpt_at_in_", "cur_out_", "ckpt_out_", "ckpt_at_out_", "sdk_",
      "key_", "gen_"], ¬ (key.toList <+: p.toList) ∧ ¬ (p.toList <+: key.toList)) :
    key ∉ ownKeys owner := by
  have hne : ∀ p ∈ ["cur_in_", "ckpt_in_", "ckpt_at_in_", "cur_out_", "ckpt_out_", "ckpt_at_out_",
      "sdk_", "key_", "gen_"], ∀ x : String, key ≠ p ++ x := by
    intro p hp x heq
    have happ := append_ne "" x (h p hp)
    rw [String.append_empty] at happ
    exact happ heq
  intro hmem
  simp only [ownKeys, List.mem_cons, List.not_mem_nil, or_false] at hmem
  rcases hmem with h | h | h | h | h | h | h | h | h | h
  · exact hne "cur_in_" (by decide) (feltHex owner) h
  · exact hne "ckpt_in_" (by decide) (feltHex owner) h
  · exact hne "ckpt_at_in_" (by decide) (feltHex owner) h
  · exact hne "cur_out_" (by decide) (feltHex owner) h
  · exact hne "ckpt_out_" (by decide) (feltHex owner) h
  · exact hne "ckpt_at_out_" (by decide) (feltHex owner) h
  · exact hne "sdk_" (by decide) (feltHex owner ++ "_stamp") (h.trans String.append_assoc)
  · exact hne "sdk_" (by decide) (feltHex owner ++ "_block") (h.trans String.append_assoc)
  · exact hne "key_" (by decide) (feltHex owner) h
  · exact hne "gen_" (by decide) (feltHex owner) h

/-- The keys a discovery reads and never writes. -/
theorem tailGeneration_not_mem (owner : Felt) : "tail_generation" ∉ ownKeys owner :=
  not_mem_ownKeys owner (by decide)

/-- Another owner's stamp is not written. -/
theorem genKey_not_mem {a b : Felt} (h : b ≠ a) : genKey b ∉ ownKeys a := by
  intro hmem
  simp only [ownKeys, List.mem_cons, List.not_mem_nil, or_false] at hmem
  rcases hmem with heq | heq | heq | heq | heq | heq | heq | heq | heq | heq
  · exact ne_genKey (p := "cur_in_") b (by decide) heq.symm
  · exact ne_genKey (p := "ckpt_in_") b (by decide) heq.symm
  · exact ne_genKey (p := "ckpt_at_in_") b (by decide) heq.symm
  · exact ne_genKey (p := "cur_out_") b (by decide) heq.symm
  · exact ne_genKey (p := "ckpt_out_") b (by decide) heq.symm
  · exact ne_genKey (p := "ckpt_at_out_") b (by decide) heq.symm
  · exact ne_genKey (p := "sdk_") b (by decide) (heq.trans String.append_assoc).symm
  · exact ne_genKey (p := "sdk_") b (by decide) (heq.trans String.append_assoc).symm
  · exact ne_genKey (p := "key_") b (by decide) heq.symm
  · exact h (genKey_inj heq)

/-! ## What a discovery leaves alone -/

/-- A write that is not reached leaves the host as it was. -/
theorem triple_write {S : Type} {pre exc : Host S → Prop} {post : PUnit → Host S → Prop} {f : S → S}
    (hok : ∀ h n, pre h → post PUnit.unit { h with store := f h.store, budget := n })
    (hstop : ∀ h, pre h → exc h) : Triple pre (write f) post exc := by
  intro h hpre
  rw [write]
  cases h.budget with
  | zero => exact hstop h hpre
  | succ n => exact hok h n hpre

section

variable {S : Type} [SharedStore S]

/-- A discovery's reach: its owner's keys and the registry. -/
structure Frame (owner : Felt) (s s' : S) : Prop where
  metas : ∀ key ∉ ownKeys owner, metaGet s' key = metaGet s key
  rows : LawfulStore.rows s' = LawfulStore.rows s
  slotSet : ConsumerStore.fullSlotSetAsOf s' = ConsumerStore.fullSlotSetAsOf s
  good : LawfulStore.Good s → LawfulStore.Good s'

namespace Frame

variable {owner : Felt} {s₀ s s' : S}

theorem refl (owner : Felt) (s : S) : Frame owner s s := ⟨fun _ _ => rfl, rfl, rfl, id⟩

theorem metaSet (h : Frame owner s₀ s) {key : String} (hkey : key ∈ ownKeys owner)
    (value : String) : Frame owner s₀ (metaSet s key value) where
  metas k hk := by
    have hne : k ≠ key := fun heq => hk (heq ▸ hkey)
    rw [LawfulStore.metaGet_metaSet, if_neg hne]
    exact h.metas k hk
  rows := (LawfulStore.rows_metaSet s key value).trans h.rows
  slotSet := (SharedStore.slotSet_metaSet s key value).trans h.slotSet
  good hg := LawfulStore.good_metaSet s key value (h.good hg)

theorem mirror (h : Frame owner s₀ s) (hm : SameMirror s s') : Frame owner s₀ s' where
  metas k hk := (hm.metas k).trans (h.metas k hk)
  rows := hm.rows.trans h.rows
  slotSet := hm.slotSet.trans h.slotSet
  good hg := hm.good (h.good hg)

theorem generation_eq (h : Frame owner s₀ s) : generation s = generation s₀ := by
  rw [generation, metaU64, h.metas _ (tailGeneration_not_mem owner)]
  rfl

end Frame

/-! ## The registry

What every write to the registry keeps, the registry's operations keep. -/

section Registry

variable {I exc : Host S → Prop}
  (hI : ∀ {f : S → S}, (∀ s, SameMirror s (f s)) → Triple I (write f) (fun _ => I) exc)
  (core : DiscoveryCore S) (owner : Felt)
include hI

theorem triple_registerNotes (key : Felt) (cursor : DiscoveryCursor) (notes : List DecryptedNote) :
    Triple I (registerNotes core owner key cursor notes) (fun _ => I) exc := by
  rw [registerNotes]
  refine Triple.forM fun n _ => ?_
  cases cursor.channels.lookup n.senderAddr with
  | none => exact Triple.pure fun _ hi => hi
  | some channel => exact hI fun s => SharedStore.upsertNote_mirror s _

theorem triple_registerScannedNotes (key : Felt) (cursor : DiscoveryCursor) (bound : Nat) :
    Triple I (registerScannedNotes core owner key cursor bound) (fun _ => I) exc := by
  rw [registerScannedNotes]
  refine Triple.read fun t => Triple.forM fun c _ => Triple.forM fun x _ => ?_
  obtain ⟨token, sub⟩ := x
  cases hlast : sub.lastNoteIndex with
  | none =>
      simp only [hlast]
      exact Triple.pure fun _ hi => hi
  | some last =>
      simp only [hlast]
      refine Triple.forM fun index _ => Triple.ite (fun _ => Triple.pure fun _ hi => hi) fun _ => ?_
      refine Triple.read fun t => Triple.ite (fun _ => Triple.pure fun _ hi => hi) fun _ => ?_
      exact hI fun s => SharedStore.upsertNote_mirror s _

theorem triple_refreshSpent (block : Nat) :
    Triple I (refreshSpent core owner block) (fun _ => I) exc := by
  rw [refreshSpent]
  refine Triple.read fun t => Triple.read fun t' => Triple.bind (Triple.forM fun n _ => ?_) fun _ =>
    Triple.pure fun _ hi => hi
  exact Triple.ite (fun _ => hI fun s => SharedStore.setNoteSpent_mirror s _ _) fun _ =>
    Triple.pure fun _ hi => hi

theorem triple_pruneMissingNotes (asOf : Nat) :
    Triple I (pruneMissingNotes core owner asOf) (fun _ => I) exc := by
  rw [pruneMissingNotes]
  refine Triple.read fun t => Triple.forM fun n _ => ?_
  exact Triple.ite (fun _ => hI fun s => SharedStore.deleteNote_mirror s _) fun _ =>
    Triple.pure fun _ hi => hi

end Registry

/-! ## The rewind -/

variable (core : DiscoveryCore S) (owner : Felt) (s₀ : S)

/-- An engine run after a rewind. The live cursors are discarded, apart from
the incoming one once its own live run has saved it anew; a live run starts
from the checkpoint, or from nothing. -/
structure Rewound (p : Pass S) : Prop where
  outgoing : metaGet p.store (keys .outgoing owner).live = some ""
  incoming : p.live = false ∨ p.kind = .incoming →
    metaGet p.store (keys .incoming owner).live = some ""
  start : p.live = true →
    ∃ c, loadCursor core p.store (keys p.kind owner).ckpt = .ok c ∧ p.start = c.getD .default

/-- The owner has not seen the mirror's generation. -/
def Behind : Prop := ownerGeneration s₀ owner ≠ ConsumerStore.tailGeneration s₀

/-- A discovery that started on `s₀`, before its stamp. `gone` are the live
cursors a rewind has discarded so far. -/
structure During (gone : Kind → Prop) (h : Host S) : Prop where
  frame : Frame owner s₀ h.store
  stamp : metaGet h.store (genKey owner) = metaGet s₀ (genKey owner)
  passes : Behind owner s₀ → ∀ p ∈ h.passes, Rewound core owner p
  live : Behind owner s₀ → ∀ kind, gone kind → metaGet h.store (keys kind owner).live = some ""

variable {core owner s₀} {gone g : Kind → Prop}

/-- Where a discovery may stop. -/
def Stopped (core : DiscoveryCore S) (owner : Felt) (s₀ : S) : Host S → Prop :=
  During core owner s₀ fun _ => False

theorem During.stopped {h : Host S} (hd : During core owner s₀ gone h) :
    Stopped core owner s₀ h :=
  ⟨hd.frame, hd.stamp, hd.passes, fun _ _ hk => hk.elim⟩

theorem During.mono {h : Host S} (hd : During core owner s₀ gone h)
    (hg : Behind owner s₀ → ∀ kind, g kind → gone kind) : During core owner s₀ g h :=
  ⟨hd.frame, hd.stamp, hd.passes, fun hb kind hk => hd.live hb kind (hg hb kind hk)⟩

/-- A write to one of the owner's keys other than the stamp. -/
theorem triple_metaSet {key : String} {value : String} (hkey : key ∈ ownKeys owner)
    (hstamp : key ≠ genKey owner)
    (hgone : ∀ kind, g kind → (key = (keys kind owner).live ∧ value = "") ∨
      (key ≠ (keys kind owner).live ∧ gone kind)) :
    Triple (During core owner s₀ gone) (write fun s => metaSet s key value)
      (fun _ => During core owner s₀ g) (Stopped core owner s₀) := by
  refine triple_write (fun h n hd => ⟨hd.frame.metaSet hkey value, ?_, hd.passes, ?_⟩)
    fun h hd => hd.stopped
  · rw [LawfulStore.metaGet_metaSet, if_neg hstamp.symm]
    exact hd.stamp
  · intro hb kind hk
    rw [LawfulStore.metaGet_metaSet]
    rcases hgone kind hk with ⟨rfl, rfl⟩ | ⟨hne, hk⟩
    · rw [if_pos rfl]
    · rw [if_neg hne.symm]
      exact hd.live hb kind hk

/-- A write that leaves every discarded cursor where it is. -/
theorem triple_metaSet_same {key : String} {value : String} (hkey : key ∈ ownKeys owner)
    (hstamp : key ≠ genKey owner) (hlive : ∀ kind, key ≠ (keys kind owner).live) :
    Triple (During core owner s₀ gone) (write fun s => metaSet s key value)
      (fun _ => During core owner s₀ gone) (Stopped core owner s₀) :=
  triple_metaSet hkey hstamp fun kind hk => .inr ⟨hlive kind, hk⟩

/-- A write to the registry. -/
theorem triple_mirror {f : S → S} (hf : ∀ s, SameMirror s (f s)) :
    Triple (During core owner s₀ gone) (write f) (fun _ => During core owner s₀ gone)
      (Stopped core owner s₀) := by
  refine triple_write (fun h n hd => ⟨hd.frame.mirror (hf h.store), ?_, hd.passes, ?_⟩)
    fun h hd => hd.stopped
  · rw [(hf h.store).metas]
    exact hd.stamp
  · intro hb kind hk
    rw [(hf h.store).metas]
    exact hd.live hb kind hk

theorem triple_skip :
    Triple (During core owner s₀ gone) (pure PUnit.unit : EStateM Failure (Host S) PUnit)
      (fun _ => During core owner s₀ gone) (Stopped core owner s₀) :=
  Triple.pure fun _ hd => hd

/-! ### The passes -/

theorem sdk_ne_live (x : String) (kind : Kind) (owner : Felt) :
    "sdk_" ++ feltHex owner ++ x ≠ (keys kind owner).live := by
  rw [String.append_assoc]
  cases kind
  · exact append_ne (p := "sdk_") (q := "cur_in_") _ _ (by decide)
  · exact append_ne (p := "sdk_") (q := "cur_out_") _ _ (by decide)

theorem sdk_ne_genKey (x : String) (owner : Felt) : "sdk_" ++ feltHex owner ++ x ≠ genKey owner := by
  rw [String.append_assoc]
  exact ne_genKey (p := "sdk_") owner (by decide)

theorem identityKey_ne_live (kind : Kind) (owner : Felt) :
    identityKey owner ≠ (keys kind owner).live := by
  cases kind
  · exact append_ne (p := "key_") (q := "cur_in_") _ _ (by decide)
  · exact append_ne (p := "key_") (q := "cur_out_") _ _ (by decide)

theorem triple_fullResync (hgone : ∀ kind, ¬ gone kind) :
    Triple (During core owner s₀ gone) (fullResync owner) (fun _ => During core owner s₀ gone)
      (Stopped core owner s₀) := by
  rw [fullResync]
  refine Triple.bind (Triple.forM fun kind _ => ?_) fun _ => ?_
  · refine Triple.bind (triple_metaSet (live_mem_ownKeys kind owner) (live_ne_genKey kind owner)
      fun k hk => absurd hk (hgone k)) fun _ => ?_
    refine Triple.bind (triple_metaSet_same (ckpt_mem_ownKeys kind owner)
      (ckpt_ne_genKey kind owner) fun k => ckpt_ne_live kind k owner) fun _ => ?_
    exact triple_metaSet_same (ckptAt_mem_ownKeys kind owner) (ckptAt_ne_genKey kind owner)
      fun k => ckptAt_ne_live kind k owner
  · refine Triple.bind (triple_metaSet_same (by simp [ownKeys]) (sdk_ne_genKey "_stamp" owner)
      fun k => sdk_ne_live "_stamp" k owner) fun _ => ?_
    refine Triple.bind (triple_metaSet_same (by simp [ownKeys]) (sdk_ne_genKey "_block" owner)
      fun k => sdk_ne_live "_block" k owner) fun _ => ?_
    exact triple_mirror fun s => SharedStore.deleteOwnerNotes_mirror s owner

theorem triple_checkIdentity (key : Felt) (hgone : ∀ kind, ¬ gone kind) :
    Triple (During core owner s₀ gone) (checkIdentity owner key)
      (fun _ => During core owner s₀ gone) (Stopped core owner s₀) := by
  rw [checkIdentity]
  refine Triple.read fun t => Triple.ite (fun _ => ?_) fun _ => triple_skip
  refine Triple.bind (triple_fullResync hgone) fun _ => ?_
  exact triple_metaSet_same (by simp [ownKeys]) (ne_genKey (p := "key_") owner (by decide))
    fun k => identityKey_ne_live k owner

theorem During.ownerGeneration_eq {h : Host S} (hd : During core owner s₀ gone h) :
    ownerGeneration h.store owner = ownerGeneration s₀ owner := by
  rw [ownerGeneration, metaU64, hd.stamp]
  rfl

/-- Behind, both live cursors are gone before anything is run. -/
theorem triple_rewindLive (head : Nat) :
    Triple (During core owner s₀ fun _ => False)
      (rewindLive core owner (ConsumerStore.tailGeneration s₀) head)
      (fun _ => During core owner s₀ fun _ => True) (Stopped core owner s₀) := by
  rw [rewindLive]
  refine Triple.get fun t => ?_
  by_cases hne : ownerGeneration t.store owner ≠ ConsumerStore.tailGeneration s₀
  · rw [if_pos hne]
    refine Triple.bind (M := fun _ => During core owner s₀ fun kind => kind = .incoming) ?_
      fun _ => Triple.bind (M := fun _ => During core owner s₀ fun _ => True) ?_ fun _ => ?_
    · refine (triple_metaSet (live_mem_ownKeys .incoming owner)
        (live_ne_genKey .incoming owner) ?_).weaken (fun h hd => hd.2) fun _ _ hd => hd
      rintro kind rfl
      exact .inl ⟨rfl, rfl⟩
    · refine triple_metaSet (live_mem_ownKeys .outgoing owner)
        (live_ne_genKey .outgoing owner) fun kind _ => ?_
      cases kind with
      | outgoing => exact .inl ⟨rfl, rfl⟩
      | incoming => exact .inr ⟨fun heq => absurd (live_inj heq) (by decide), rfl⟩
    · exact Triple.bind (triple_pruneMissingNotes triple_mirror core owner head) fun _ => Triple.pure fun _ hd => hd
  · rw [if_neg hne]
    refine Triple.pure ?_
    rintro h ⟨rfl, hd⟩
    refine hd.mono fun hb => absurd ?_ hb
    rw [← hd.ownerGeneration_eq]
    exact not_not.mp hne

/-- A run is entered with its cursor and its store. -/
theorem triple_enter {live : Bool} {kind : Kind} {start : DiscoveryCursor}
    (hout : gone .outgoing) (hin : live = false ∨ kind = .incoming → gone .incoming) :
    Triple (fun h => During core owner s₀ gone h ∧ (Behind owner s₀ → live = true →
        ∃ c, loadCursor core h.store (keys kind owner).ckpt = .ok c ∧ start = c.getD .default))
      (enter live kind start) (fun _ => During core owner s₀ gone) (Stopped core owner s₀) := by
  rintro h ⟨hd, hstart⟩
  refine ⟨hd.frame, hd.stamp, fun hb p hp => ?_, hd.live⟩
  rcases List.mem_append.mp hp with hp | hp
  · exact hd.passes hb p hp
  · rw [List.mem_singleton.mp hp]
    exact ⟨hd.live hb _ hout, fun hk => hd.live hb _ (hin hk), hstart hb⟩

/-- A checkpoint run, or a live one at its start. -/
def StartsAt (core : DiscoveryCore S) (owner : Felt) (s₀ : S) (live : Bool) (kind : Kind)
    (start : DiscoveryCursor) (h : Host S) : Prop :=
  Behind owner s₀ → live = true →
    ∃ c, loadCursor core h.store (keys kind owner).ckpt = .ok c ∧ start = c.getD .default

theorem triple_incomingPass {live : Bool} {key : Felt} {bound : Nat} {start : DiscoveryCursor}
    {saveTo : String} (hall : ∀ kind, gone kind) (hkey : saveTo ∈ ownKeys owner)
    (hstamp : saveTo ≠ genKey owner)
    (hgone : ∀ kind, g kind → saveTo ≠ (keys kind owner).live) :
    Triple (fun h => During core owner s₀ gone h ∧ StartsAt core owner s₀ live .incoming start h)
      (incomingPass core live owner key bound start saveTo) (fun _ => During core owner s₀ g)
      (Stopped core owner s₀) := by
  rw [incomingPass]
  refine Triple.bind (triple_enter (hall _) fun _ => hall _) fun _ => Triple.read fun t => ?_
  refine Triple.bind (Triple.lift (fun _ _ _ hd => hd) fun _ hd => hd.stopped) fun r => ?_
  refine Triple.bind (triple_registerNotes triple_mirror core owner key r.1 r.2) fun _ => ?_
  refine Triple.bind (triple_registerScannedNotes triple_mirror core owner key r.1 bound) fun _ => ?_
  refine Triple.bind (triple_metaSet hkey hstamp fun kind hk => .inr ⟨hgone kind hk, hall kind⟩)
    fun _ => Triple.pure fun _ hd => hd

theorem triple_outgoingPass {live : Bool} {key : Felt} {bound : Nat} {start : DiscoveryCursor}
    {saveTo : String} (hout : gone .outgoing) (hin : live = false → gone .incoming)
    (hkey : saveTo ∈ ownKeys owner) (hstamp : saveTo ≠ genKey owner)
    (hgone : ∀ kind, g kind → saveTo ≠ (keys kind owner).live ∧ gone kind) :
    Triple (fun h => During core owner s₀ gone h ∧ StartsAt core owner s₀ live .outgoing start h)
      (outgoingPass core live owner key bound start saveTo) (fun _ => During core owner s₀ g)
      (Stopped core owner s₀) := by
  rw [outgoingPass]
  refine Triple.bind (triple_enter hout ?_) fun _ => Triple.read fun t => ?_
  · rintro (hlive | hkind)
    · exact hin hlive
    · cases hkind
  refine Triple.bind (Triple.lift (fun _ _ _ hd => hd) fun _ hd => hd.stopped) fun cursor => ?_
  refine Triple.bind (triple_metaSet hkey hstamp fun kind hk => .inr (hgone kind hk))
    fun _ => Triple.pure fun _ hd => hd

/-! ### The live runs -/

/-- Live runs of these kinds were entered. -/
def RanLive (kinds : Kind → Prop) (h : Host S) : Prop :=
  ∀ kind, kinds kind → ∃ p ∈ h.passes, p.live = true ∧ p.kind = kind

omit [SharedStore S] in
theorem ranLive_write {kinds : Kind → Prop} {f : S → S} :
    Triple (RanLive kinds) (write f) (fun _ => RanLive kinds) fun _ => True :=
  triple_write (fun _ _ hr => hr) fun _ _ => trivial

omit [SharedStore S] in
theorem ranLive_enter (kinds : Kind → Prop) {kind : Kind} {start : DiscoveryCursor} :
    Triple (RanLive (S := S) kinds) (enter true kind start)
      (fun _ => RanLive fun k => kinds k ∨ k = kind) fun _ => True := by
  intro h hr k hk
  rcases hk with hk | rfl
  · obtain ⟨p, hp, hlive, hkind⟩ := hr k hk
    exact ⟨p, List.mem_append_left _ hp, hlive, hkind⟩
  · exact ⟨_, List.mem_append_right _ (List.mem_singleton_self _), rfl, rfl⟩

theorem ranLive_incomingPass (kinds : Kind → Prop) (core : DiscoveryCore S) (owner key : Felt)
    (bound : Nat) (start : DiscoveryCursor) (saveTo : String) :
    Triple (RanLive kinds) (incomingPass core true owner key bound start saveTo)
      (fun _ => RanLive fun k => kinds k ∨ k = .incoming) fun _ => True := by
  rw [incomingPass]
  refine Triple.bind (ranLive_enter kinds) fun _ => Triple.read fun t => ?_
  refine Triple.bind (Triple.lift (fun _ _ _ hr => hr) fun _ _ => trivial) fun r => ?_
  refine Triple.bind (triple_registerNotes (fun _ => ranLive_write) core owner key r.1 r.2)
    fun _ => ?_
  refine Triple.bind (triple_registerScannedNotes (fun _ => ranLive_write) core owner key r.1 bound)
    fun _ => ?_
  exact Triple.bind ranLive_write fun _ => Triple.pure fun _ hr => hr

theorem ranLive_outgoingPass (kinds : Kind → Prop) (core : DiscoveryCore S) (owner key : Felt)
    (bound : Nat) (start : DiscoveryCursor) (saveTo : String) :
    Triple (RanLive kinds) (outgoingPass core true owner key bound start saveTo)
      (fun _ => RanLive fun k => kinds k ∨ k = .outgoing) fun _ => True := by
  rw [outgoingPass]
  refine Triple.bind (ranLive_enter kinds) fun _ => Triple.read fun t => ?_
  refine Triple.bind (Triple.lift (fun _ _ _ hr => hr) fun _ _ => trivial) fun cursor => ?_
  exact Triple.bind ranLive_write fun _ => Triple.pure fun _ hr => hr

/-- A checkpoint run starts where it likes. -/
theorem startsAt_checkpoint (kind : Kind) (start : DiscoveryCursor) (h : Host S) :
    StartsAt core owner s₀ false kind start h :=
  fun _ hlive => absurd hlive (by decide)

theorem triple_checkpointPass (key : Felt) (floor : Nat) (verified : String) :
    Triple (During core owner s₀ fun _ => True) (checkpointPass core owner key floor verified)
      (fun _ => During core owner s₀ fun _ => True) (Stopped core owner s₀) := by
  rw [checkpointPass]
  refine Triple.ite (fun _ => Triple.read fun t => Triple.ite (fun _ => ?_) fun _ => triple_skip)
    fun _ => triple_skip
  refine Triple.read fun t => Triple.bind
    (Triple.lift (fun _ _ _ hd => hd) fun _ hd => hd.stopped) fun start => ?_
  refine Triple.bind ((triple_incomingPass (g := fun _ => True) (fun _ => trivial) (ckpt_mem_ownKeys .incoming owner)
    (ckpt_ne_genKey .incoming owner) fun kind _ => ckpt_ne_live .incoming kind owner).weaken
    (fun h hd => ⟨hd, startsAt_checkpoint .incoming _ h⟩) fun _ _ hd => hd) fun _ => ?_
  refine Triple.bind (triple_metaSet_same (ckptAt_mem_ownKeys .incoming owner)
    (ckptAt_ne_genKey .incoming owner) fun kind => ckptAt_ne_live .incoming kind owner) fun _ => ?_
  refine Triple.read fun t => Triple.bind
    (Triple.lift (fun _ _ _ hd => hd) fun _ hd => hd.stopped) fun start => ?_
  refine Triple.bind ((triple_outgoingPass (g := fun _ => True) trivial (fun _ => trivial)
    (ckpt_mem_ownKeys .outgoing owner) (ckpt_ne_genKey .outgoing owner)
    fun kind _ => ⟨ckpt_ne_live .outgoing kind owner, trivial⟩).weaken
    (fun h hd => ⟨hd, startsAt_checkpoint .outgoing _ h⟩) fun _ _ hd => hd) fun _ => ?_
  exact triple_metaSet_same (ckptAt_mem_ownKeys .outgoing owner)
    (ckptAt_ne_genKey .outgoing owner) fun kind => ckptAt_ne_live .outgoing kind owner

/-- Without a live cursor, a live run starts from the checkpoint. -/
theorem liveStart_discarded {s : S} {kind : Kind} {c : DiscoveryCursor}
    (hlive : metaGet s (keys kind owner).live = some "") (h : liveStart core s kind owner = .ok c) :
    ∃ c', loadCursor core s (keys kind owner).ckpt = .ok c' ∧ c = c'.getD .default := by
  rw [liveStart, hlive] at h
  have hload : (loadCursor core s (keys kind owner).ckpt).map (fun c => c.getD .default) = .ok c := h
  cases hc : loadCursor core s (keys kind owner).ckpt with
  | error e =>
      rw [hc] at hload
      cases hload
  | ok c' =>
      rw [hc] at hload
      exact ⟨c', rfl, (Except.ok.inj hload).symm⟩

theorem During.startsAt {h : Host S} {kind : Kind} {c : DiscoveryCursor}
    (hd : During core owner s₀ gone h) (hgone : gone kind)
    (hc : liveStart core h.store kind owner = .ok c) :
    StartsAt core owner s₀ true kind c h :=
  fun hb _ => liveStart_discarded (hd.live hb kind hgone) hc

/-- The end of a discovery's writes: the stamp is the generation it started on, and both
live runs were entered. -/
structure Completed (core : DiscoveryCore S) (owner : Felt) (s₀ : S) (h : Host S) : Prop where
  frame : Frame owner s₀ h.store
  stamp : metaGet h.store (genKey owner) = some (ConsumerStore.tailGeneration s₀).repr
  passes : Behind owner s₀ → ∀ p ∈ h.passes, Rewound core owner p
  live : RanLive (fun _ => True) h

theorem triple_stamp :
    Triple (fun h => During core owner s₀ gone h ∧ RanLive (fun _ => True) h)
      (write fun s => metaSet s (genKey owner) (ConsumerStore.tailGeneration s₀).repr)
      (fun _ => Completed core owner s₀) (Stopped core owner s₀) := by
  refine triple_write (fun h n hd => ⟨hd.1.frame.metaSet (by simp [ownKeys]) _, ?_, hd.1.passes,
    hd.2⟩) fun h hd => hd.1.stopped
  rw [LawfulStore.metaGet_metaSet, if_pos rfl]

theorem During.tailGeneration_eq {h : Host S} (hd : During core owner s₀ gone h) :
    ConsumerStore.tailGeneration h.store = ConsumerStore.tailGeneration s₀ := by
  rw [SharedStore.tailGeneration_eq, SharedStore.tailGeneration_eq]
  exact hd.frame.generation_eq

theorem during_start (core : DiscoveryCore S) (owner : Felt) (s : S) (budget : Nat) :
    During core owner s (fun _ => False) ⟨s, budget, []⟩ where
  frame := Frame.refl owner s
  stamp := rfl
  passes _ p hp := by cases hp
  live _ _ hk := hk.elim

/-- What `discover_state` did up to its stamp, wherever it ended. -/
theorem triple_discoverStamped (key : Felt) (outcome : ApplyOutcome) (verified : String) :
    Triple (During core owner s₀ fun _ => False) (discoverStamped core owner key outcome verified)
      (fun _ => Completed core owner s₀) (Stopped core owner s₀) := by
  rw [discoverStamped]
  refine Triple.bind (triple_checkIdentity key fun _ => id) fun _ => Triple.get fun t => ?_
  by_cases ht : During core owner s₀ (fun _ => False) t
  · rw [ht.tailGeneration_eq]
    refine Triple.bind ((triple_rewindLive outcome.head).weaken (fun _ hd => hd.2)
      fun _ _ hd => hd) fun rewound => ?_
    refine Triple.bind (triple_checkpointPass key outcome.lastEpochTo verified) fun _ => ?_
    refine Triple.get fun h₁ => Triple.bind (M := fun start h =>
      During core owner s₀ (fun _ => True) h ∧ StartsAt core owner s₀ true .incoming start h)
      (Triple.lift ?_ fun _ hd => hd.2.stopped) fun start => ?_
    · rintro start h hstart ⟨rfl, hd⟩
      exact ⟨hd, hd.startsAt trivial hstart⟩
    -- the incoming run saves its cursor, the outgoing one is still discarded
    refine Triple.bind (((triple_incomingPass (g := fun kind => kind = .outgoing)
      (fun _ => trivial) (live_mem_ownKeys .incoming owner) (live_ne_genKey .incoming owner) ?_).also
        (ranLive_incomingPass (fun _ => False) core owner key outcome.head start _)).entails
          fun h hd => ⟨hd, fun _ hk => hk.elim⟩) fun inCursor => ?_
    · rintro kind rfl heq
      exact absurd (live_inj heq) (by decide)
    refine Triple.get fun h₂ => Triple.bind (M := fun start h =>
      (During core owner s₀ (fun kind => kind = .outgoing) h ∧
        StartsAt core owner s₀ true .outgoing start h) ∧
          RanLive (fun k => False ∨ k = .incoming) h)
      (Triple.lift ?_ fun _ hd => hd.2.1.stopped) fun start => ?_
    · rintro start h hstart ⟨rfl, hd, hran⟩
      exact ⟨⟨hd, hd.startsAt rfl hstart⟩, hran⟩
    have hout : Triple (fun h => During core owner s₀ (fun kind => kind = .outgoing) h ∧
          StartsAt core owner s₀ true .outgoing start h)
        (outgoingPass core true owner key outcome.head start (keys .outgoing owner).live)
        (fun _ => During core owner s₀ fun _ => False) (Stopped core owner s₀) :=
      triple_outgoingPass rfl (fun hlive => absurd hlive (by decide))
        (live_mem_ownKeys .outgoing owner) (live_ne_genKey .outgoing owner) fun _ hk => hk.elim
    refine Triple.bind (hout.also (ranLive_outgoingPass _ core owner key outcome.head start _))
      fun outCursor => ?_
    refine Triple.bind ((triple_refreshSpent triple_mirror core owner outcome.head).also
      (triple_refreshSpent (fun _ => ranLive_write) core owner outcome.head)) fun newlySpent => ?_
    refine Triple.bind ((@triple_stamp S _ core owner s₀ fun _ => False).entails ?_) fun _ =>
      Triple.pure fun _ hd => hd
    rintro h ⟨hd, hran⟩
    refine ⟨hd, fun kind _ => hran kind ?_⟩
    cases kind with
    | incoming => exact .inl (.inr rfl)
    | outgoing => exact .inr rfl
  · rintro h ⟨rfl, hd⟩
    exact absurd hd ht

theorem triple_readNotes : Triple (Completed core owner s₀) (readNotes owner)
    (fun _ => Completed core owner s₀) (Completed core owner s₀) := by
  intro h hd
  rw [readNotes]
  cases h.budget with
  | zero => exact hd
  | succ n => exact ⟨hd.frame, hd.stamp, hd.passes, hd.live⟩

/-- The notes are read behind the stamp: a discovery that fails there has completed its
writes. -/
theorem triple_discoverState (key : Felt) (outcome : ApplyOutcome) (verified : String) :
    Triple (During core owner s₀ fun _ => False) (discoverState core owner key outcome verified)
      (fun _ => Completed core owner s₀)
      (fun h => Stopped core owner s₀ h ∨ Completed core owner s₀ h) := by
  rw [discoverState]
  refine Triple.bind ((triple_discoverStamped key outcome verified).relax fun _ hd => .inl hd)
    fun found => ?_
  exact Triple.bind (triple_readNotes.relax fun _ hd => .inr hd) fun notes =>
    Triple.pure fun _ hd => hd

end

end Strk20.Consumer
