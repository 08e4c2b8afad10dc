import Strk20.Consumer.Discover
import Strk20.Foundation.Hoare
import Strk20.Foundation.Tables

/-!
# Balances (`sync.rs`)

`discover_state` adds the unspent amounts of each token in a `u128`. The sums it reports
are the true ones exactly when every token's true sum is below `2^128`; past that the
addition wraps (and panics where overflow checks are on).
-/

namespace Strk20.Consumer

open Feed
open Std (ExtTreeMap)

/-- The unspent amounts of a token, added up. -/
def unspentTotal (notes : List NoteRow) (token : Felt) : Nat :=
  ((notes.filter fun n => !n.spent && n.token == token).map (·.amount)).sum

/-- The balances give each token of an unspent note once, with its true total. -/
structure ExactBalances (notes : List NoteRow) (balances : List (String × Nat)) : Prop where
  nodup : (balances.map Prod.fst).Nodup
  mem : ∀ (text : String) (total : Nat), (text, total) ∈ balances ↔
    ∃ token, text = feltHex token ∧ (∃ n ∈ notes, n.spent = false ∧ n.token = token) ∧
      total = unspentTotal notes token

/-- What adding a list up leaves under a token's text. -/
theorem getElem?_foldl_addBalance (notes : List NoteRow) (balances : ExtTreeMap String Nat)
    (text : String) :
    (notes.foldl addBalance balances)[text]? =
      if notes.filter (fun n => feltHex n.token == text) = [] then balances[text]?
      else some (((balances[text]?).getD 0 +
        ((notes.filter fun n => feltHex n.token == text).map (·.amount)).sum) % 2 ^ 128) := by
  induction notes generalizing balances with
  | nil => rfl
  | cons n notes ih =>
      rw [List.foldl_cons, ih, addBalance, Tables.getElem?_insert_eq]
      by_cases htext : feltHex n.token = text
      · have hkeep : (n :: notes).filter (fun n => feltHex n.token == text) =
            n :: notes.filter fun n => feltHex n.token == text :=
          List.filter_cons_of_pos (beq_iff_eq.mpr htext)
        rw [hkeep, if_neg (List.cons_ne_nil _ _), List.map_cons, List.sum_cons, htext, if_pos rfl]
        by_cases hnil : notes.filter (fun n => feltHex n.token == text) = []
        · rw [if_pos hnil, hnil]
          rfl
        · rw [if_neg hnil, Option.getD_some, Nat.mod_add_mod, Nat.add_assoc]
      · have hdrop : (n :: notes).filter (fun n => feltHex n.token == text) =
            notes.filter fun n => feltHex n.token == text :=
          List.filter_cons_of_neg fun heq => htext (beq_iff_eq.mp heq)
        have hother : ¬ text = feltHex n.token := fun heq => htext heq.symm
        rw [hdrop, if_neg hother]

/-- What is reported for a token. -/
theorem mem_balancesOf (notes : List NoteRow) (text : String) (total : Nat) :
    (text, total) ∈ balancesOf notes ↔ ∃ token, text = feltHex token ∧
      (∃ n ∈ notes, n.spent = false ∧ n.token = token) ∧
        total = unspentTotal notes token % 2 ^ 128 := by
  have hsum : ∀ token : Felt, (((notes.filter fun n => !n.spent).filter fun n =>
      feltHex n.token == feltHex token).map (·.amount)).sum = unspentTotal notes token := by
    intro token
    unfold unspentTotal
    rw [List.filter_filter]
    -- two tokens do not share a text
    have hiff : ∀ n : NoteRow, (feltHex n.token == feltHex token) = (n.token == token) := by
      intro n
      rw [Bool.eq_iff_iff, beq_iff_eq, beq_iff_eq]
      exact ⟨fun h => hexParser.feltHex_inj h, fun h => by rw [h]⟩
    refine congrArg (fun l : List NoteRow => (l.map (·.amount)).sum) (List.filter_congr ?_)
    intro n _
    rw [hiff, Bool.and_comm]
  rw [balancesOf, ExtTreeMap.mem_toList_iff_getElem?_eq_some, getElem?_foldl_addBalance,
    ExtTreeMap.getElem?_empty, Option.getD_none, Nat.zero_add]
  constructor
  · intro h
    split at h
    · cases h
    · rename_i hsome
      obtain ⟨n, hn⟩ := List.exists_mem_of_ne_nil _ hsome
      obtain ⟨hmem, htext⟩ := List.mem_filter.mp hn
      obtain rfl := beq_iff_eq.mp htext
      obtain ⟨hnote, hspent⟩ := List.mem_filter.mp hmem
      rw [Bool.not_eq_true'] at hspent
      refine ⟨n.token, rfl, ⟨n, hnote, hspent, rfl⟩, ?_⟩
      rw [← hsum]
      exact (Option.some.inj h).symm
  · rintro ⟨token, rfl, ⟨n, hn, hspent, rfl⟩, rfl⟩
    have hmem : n ∈ (notes.filter fun n => !n.spent).filter
        fun n' => feltHex n'.token == feltHex n.token :=
      List.mem_filter.mpr ⟨List.mem_filter.mpr ⟨hn, by rw [hspent]; rfl⟩, beq_self_eq_true _⟩
    rw [if_neg (List.ne_nil_of_mem hmem), hsum]

theorem nodup_balancesOf (notes : List NoteRow) : ((balancesOf notes).map Prod.fst).Nodup := by
  rw [balancesOf, ExtTreeMap.map_fst_toList_eq_keys]
  exact ExtTreeMap.nodup_keys

/-- A note that is not there adds nothing. -/
theorem unspentTotal_eq_zero {notes : List NoteRow} {token : Felt}
    (h : ¬ ∃ n ∈ notes, n.spent = false ∧ n.token = token) : unspentTotal notes token = 0 := by
  have hnil : (notes.filter fun n => !n.spent && n.token == token) = [] := by
    refine List.filter_eq_nil_iff.mpr fun n hn hpass => h ⟨n, hn, ?_⟩
    simpa using hpass
  rw [unspentTotal, hnil]
  rfl

/-- What a discovery reports is summed over the owner's registry. -/
theorem discoverState_balances {S : Type} [ConsumerStore S] {core : DiscoveryCore S}
    {owner key : Felt} {outcome : ApplyOutcome} {verified : String} {h h' : Host S}
    {report : SyncReport} (hrun : discoverState core owner key outcome verified h = .ok report h') :
    report.notes = ConsumerStore.notes h'.store owner ∧ report.balances = balancesOf report.notes := by
  rw [discoverState] at hrun
  obtain ⟨found, h₁, -, hrun⟩ := Effect.bind_ok.mp hrun
  obtain ⟨notes, h₂, hread, hrun⟩ := Effect.bind_ok.mp hrun
  obtain ⟨rfl, rfl⟩ := EStateM.Result.ok.inj hrun
  rw [readNotes] at hread
  cases hbudget : h₁.budget with
  | zero =>
      rw [hbudget] at hread
      cases hread
  | succ n =>
      rw [hbudget] at hread
      obtain ⟨rfl, rfl⟩ := EStateM.Result.ok.inj hread
      exact ⟨rfl, rfl⟩

theorem balancesOf_exact_iff (notes : List NoteRow) : ExactBalances notes (balancesOf notes) ↔
    ∀ token, unspentTotal notes token < 2 ^ 128 := by
  constructor
  · intro hexact token
    by_cases hthere : ∃ n ∈ notes, n.spent = false ∧ n.token = token
    · have hmem := (hexact.mem (feltHex token) _).mpr ⟨token, rfl, hthere, rfl⟩
      obtain ⟨token', htext, -, htotal⟩ := (mem_balancesOf notes _ _).mp hmem
      rw [← hexParser.feltHex_inj htext] at htotal
      rw [htotal]
      exact Nat.mod_lt _ (Nat.two_pow_pos 128)
    · rw [unspentTotal_eq_zero hthere]
      exact Nat.two_pow_pos 128
  · intro hfits
    refine ⟨nodup_balancesOf notes, fun text total => ?_⟩
    rw [mem_balancesOf]
    constructor
    · rintro ⟨token, htext, hthere, rfl⟩
      exact ⟨token, htext, hthere, Nat.mod_eq_of_lt (hfits token)⟩
    · rintro ⟨token, htext, hthere, rfl⟩
      exact ⟨token, htext, hthere, (Nat.mod_eq_of_lt (hfits token)).symm⟩

/-- **Balances are exact** exactly when every token's unspent amounts stay below
`2^128`: those added up over a registry, and so those a discovery reports. -/
theorem balances_exact_iff (notes : List NoteRow) :
    (ExactBalances notes (balancesOf notes) ↔ ∀ token, unspentTotal notes token < 2 ^ 128) ∧
    ∀ (S : Type) [ConsumerStore S] (core : DiscoveryCore S) (owner key : Felt)
      (outcome : ApplyOutcome) (verified : String) (h h' : Host S) (report : SyncReport),
      discoverState core owner key outcome verified h = .ok report h' →
      ConsumerStore.notes h'.store owner = notes →
      (ExactBalances notes report.balances ↔ ∀ token, unspentTotal notes token < 2 ^ 128) := by
  refine ⟨balancesOf_exact_iff notes, ?_⟩
  intro S _ core owner key outcome verified h h' report hrun hregistry
  obtain ⟨hnotes, hbalances⟩ := discoverState_balances hrun
  rw [hbalances, hnotes, hregistry]
  exact balancesOf_exact_iff notes

/-- An unspent note of token 3. -/
def halfNote (noteId : Felt) (index : Nat) : NoteRow :=
  ⟨noteId, 1, 2, 3, index, noteId, 2 ^ 127, 10, false⟩

/-- Two notes of half the range each: the report says the owner has nothing. -/
theorem balances_wrap : balancesOf [halfNote 5 0, halfNote 6 1] = [(feltHex 3, 0)] ∧
    ¬ ExactBalances [halfNote 5 0, halfNote 6 1] (balancesOf [halfNote 5 0, halfNote 6 1]) := by
  have hreport : balancesOf [halfNote 5 0, halfNote 6 1] = [(feltHex 3, 0)] := by
    decide +kernel
  refine ⟨hreport, fun hexact => ?_⟩
  rw [hreport] at hexact
  obtain ⟨token, htext, -, htotal⟩ := (hexact.mem (feltHex 3) 0).mp (List.mem_singleton_self _)
  rw [← hexParser.feltHex_inj htext] at htotal
  exact absurd htotal (by decide)

end Strk20.Consumer
