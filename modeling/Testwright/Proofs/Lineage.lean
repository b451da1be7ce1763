import Mathlib.Algebra.Group.Nat.Defs
import Testwright.Proofs.Ids

/-!
# Lineages

A derived name keeps the root of its parent, and so does every name at the end of a chain of derived
names (`lineageRoot_descendant`). Names that one source makes never repeat, in whatever order it is
asked for fresh and for derived ones, and a counter of 64 bits is enough for fewer than 2^64 of them.
Main statement: `names_never_repeat`.
-/

namespace Testwright

/-! ## Roots -/

/-- A name without a separator begins a lineage. -/
theorem lineageRoot_eq_self {id : String} (h : lineageSeparator ∉ id.toList) :
    lineageRoot id = id := by
  have hall : ∀ c ∈ id.toList, (c != lineageSeparator) = true := by
    intro c hc
    exact bne_iff_ne.mpr fun heq => h (heq ▸ hc)
  rw [lineageRoot, List.takeWhile_eq_self_iff.mpr hall, String.ofList_toList]

theorem bne_of_mem_lineageRoot {id : String} :
    ∀ c ∈ (lineageRoot id).toList, (c != lineageSeparator) = true := by
  intro c hc
  rw [lineageRoot, String.toList_ofList] at hc
  exact List.mem_takeWhile_imp (p := (· != lineageSeparator)) hc

namespace IdSource

/-- A derived name has the root of its parent, whatever its tag is. -/
theorem lineageRoot_derive (s : IdSource) (parent tag : String) :
    lineageRoot (s.derive parent tag).1 = lineageRoot parent := by
  have hroot : (lineageRoot parent).toList.takeWhile (· != lineageSeparator) =
      (lineageRoot parent).toList := List.takeWhile_eq_self_iff.mpr bne_of_mem_lineageRoot
  rw [lineageRoot, toList_derive, List.takeWhile_append_of_pos bne_of_mem_lineageRoot,
    List.takeWhile_cons_of_neg (by simp), List.append_nil, String.ofList_toList]

/-- A fresh name begins a lineage, unless its stem has a separator. -/
theorem lineageRoot_fresh (s : IdSource) {stem : String} (h : lineageSeparator ∉ stem.toList) :
    lineageRoot (s.fresh stem).1 = (s.fresh stem).1 :=
  lineageRoot_eq_self (s.separator_notMem_fresh h)

/-- The name at the end of a chain: each link is derived from the one before it, by a source in any
state and with any tag. -/
def descendant (first : String) (links : List (IdSource × String)) : String :=
  links.foldl (fun id link => (link.1.derive id link.2).1) first

theorem lineageRoot_descendant (first : String) (links : List (IdSource × String)) :
    lineageRoot (descendant first links) = lineageRoot first := by
  induction links generalizing first with
  | nil => rfl
  | cons link rest ih =>
      rw [descendant, List.foldl_cons, ← descendant, ih, lineageRoot_derive]

end IdSource

/-! ## Sequences of calls -/

/-- What a source is asked for. -/
inductive NameCall where
  | fresh (stem : String)
  | derive (parent tag : String)

/-- A call with a tag that does not end in a digit, or with none. -/
def NameCall.KeepsApart : NameCall → Prop
  | fresh _ => True
  | derive _ tag => ∀ c ∈ tag.toList.getLast?, c.isDigit = false

namespace IdSource

/-- The name that a call is answered with. -/
def answer (s : IdSource) : NameCall → String × IdSource
  | .fresh stem => s.fresh stem
  | .derive parent tag => s.derive parent tag

/-- The names that some calls are answered with, one after another. -/
def names (s : IdSource) : List NameCall → List String
  | [] => []
  | call :: rest => (s.answer call).1 :: (s.answer call).2.names rest

/-- The names that a counter of 64 bits leads to, which goes on with 0 after its largest number. -/
def countedNames (next : UInt64) : List NameCall → List String
  | [] => []
  | call :: rest => (answer ⟨next.toNat⟩ call).1 :: countedNames (next + 1) rest

variable {s : IdSource} {calls : List NameCall}

theorem answer_snd (s : IdSource) (call : NameCall) : (s.answer call).2 = ⟨s.next + 1⟩ := by
  cases call <;> rfl

theorem issued_answer {call : NameCall} (h : call.KeepsApart) :
    Issued s ⟨s.next + 1⟩ [(s.answer call).1] := by
  cases call with
  | fresh stem => exact issued_fresh s stem
  | derive parent tag => exact issued_derive s parent tag h

/-- The names are numbered one after another. -/
theorem issued_names (htags : ∀ call ∈ calls, call.KeepsApart) :
    Issued s ⟨s.next + calls.length⟩ (s.names calls) := by
  induction calls generalizing s with
  | nil => exact .none (Nat.le_refl _)
  | cons call rest ih =>
      obtain ⟨hcall, hrest⟩ := List.forall_mem_cons.mp htags
      have hnames := (issued_answer (s := s) hcall).append (ih hrest)
      rw [names, answer_snd, List.length_cons, Nat.add_comm rest.length 1, ← Nat.add_assoc]
      exact hnames

/-- While the numbers fit into 64 bits, a counter of 64 bits makes the same names. -/
theorem countedNames_eq (next : UInt64) (h : next.toNat + calls.length ≤ 2 ^ 64) :
    countedNames next calls = names ⟨next.toNat⟩ calls := by
  induction calls generalizing next with
  | nil => rfl
  | cons call rest ih =>
      rw [List.length_cons] at h
      rw [countedNames, names, answer_snd]
      congr 1
      cases rest with
      | nil => rfl
      | cons call' rest =>
          -- the counter is used once more, so it has not come to its end
          rw [List.length_cons] at h ih
          have hsucc : (next + 1).toNat = next.toNat + 1 := by
            rw [UInt64.toNat_add, UInt64.toNat_one]
            omega
          rw [ih (next + 1) (by omega), hsucc]

/-- **Names never repeat.** The names that a new source makes are all different, whatever stems and
parents it is given, also ones that it never made, and whatever tags, if none of them ends in a
digit; and a counter of 64 bits makes these names while there are fewer than 2^64 of them. A derived
name keeps the root of its parent, and so does a chain of derived names of any length, between which
the source may have been asked for any other names. -/
theorem names_never_repeat (hcount : calls.length < 2 ^ 64)
    (htags : ∀ call ∈ calls, call.KeepsApart) :
    (countedNames 1 calls).Nodup ∧ countedNames 1 calls = names {} calls ∧
      (∀ (s : IdSource) (parent tag : String),
        lineageRoot (s.derive parent tag).1 = lineageRoot parent) ∧
      ∀ (first : String) (links : List (IdSource × String)),
        lineageRoot (descendant first links) = lineageRoot first := by
  have hsame : countedNames 1 calls = names {} calls :=
    countedNames_eq 1 (by rw [UInt64.toNat_one]; omega)
  refine ⟨?_, hsame, lineageRoot_derive, lineageRoot_descendant⟩
  rw [hsame]
  exact (issued_names htags).nodup

/-- Calls of different kinds whose names differ in their numbers only. -/
def lookalikeCalls : List NameCall :=
  [.fresh "a~mut", .derive "a" "mut_", .derive "a~mut_2" "", .derive "a~9~9" "mut_", .fresh ""]

theorem lookalikeCalls_never_repeat :
    lookalikeCalls.length < 2 ^ 64 ∧ (∀ call ∈ lookalikeCalls, call.KeepsApart) ∧
      countedNames 1 lookalikeCalls = ["a~mut_1", "a~mut_2", "a~3", "a~mut_4", "_5"] ∧
      (countedNames 1 lookalikeCalls).Nodup ∧
      lineageRoot (descendant "a~mut_1" [(⟨2⟩, "copy"), (⟨7⟩, "~x")]) = "a" := by
  have hlength : lookalikeCalls.length < 2 ^ 64 := by decide
  have htags : ∀ call ∈ lookalikeCalls, call.KeepsApart := by
    simp [lookalikeCalls, NameCall.KeepsApart]
  obtain ⟨hnodup, -, -, hchain⟩ := names_never_repeat hlength htags
  refine ⟨hlength, htags, by decide, hnodup, ?_⟩
  rw [hchain]
  decide

end IdSource

end Testwright
