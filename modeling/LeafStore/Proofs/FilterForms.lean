import LeafStore.Proofs.Spelling
import LeafStore.Service
/-!
Which values are filters. A filter gives operators for patterns that are not too deep and of which no
two are one pattern. Exactly then it is read, as one condition for each of its members; and its
conditions stay apart from each other where they are moved below a base.
-/
namespace LeafStore

def Json.IsScalar : Json → Prop
  | .array _ | .object _ => False
  | _ => True

theorem Scalar.exists_ofJson_eq_ok_iff {v : Json} : (∃ s, ofJson v = .ok s) ↔ v.IsScalar := by
  cases v with
  | array items => exact ⟨fun ⟨_, refused⟩ => (by cases refused), fun container => container.elim⟩
  | object members => exact ⟨fun ⟨_, refused⟩ => (by cases refused), fun container => container.elim⟩
  | _ => exact ⟨fun _ => trivial, fun _ => ⟨_, rfl⟩⟩

namespace Operator

def Operands : Operator → Json → Prop
  | eq s, v | ne s, v | gt s, v | gte s, v | lt s, v | lte s, v => Scalar.ofJson v = .ok s
  | isIn list, v | notIn list, v =>
    ∃ items, v = .array items ∧ List.Forall₂ (fun item s => Scalar.ofJson item = .ok s) items list

/-- The names of operators, each with the values that it takes. -/
inductive Takes : String → Json → Prop where
  | scalar {name : String} {operand : Json}
    (named : name ∈ ["$eq", "$ne", "$gt", "$gte", "$lt", "$lte"]) (scalar : operand.IsScalar) :
    Takes name operand
  | list {name : String} {items : List Json} (named : name ∈ ["$in", "$nin"])
    (scalars : ∀ item ∈ items, item.IsScalar) : Takes name (.array items)

theorem readList_eq_ok_iff {name : String} {v : Json} {list : List Scalar} :
    readList name v = .ok list ↔
      ∃ items, v = .array items ∧
        List.Forall₂ (fun item s => Scalar.ofJson item = .ok s) items list := by
  cases v with
  | array items =>
    refine mapM_eq_ok_iff.trans ⟨fun all => ⟨items, rfl, all⟩, ?_⟩
    rintro ⟨_, same, all⟩
    cases same
    exact all
  | _ => exact ⟨fun refused => (by cases refused), fun ⟨_, same, _⟩ => (by cases same)⟩

theorem read_eq_ok_iff {name : String} {operand : Json} {o : Operator} :
    read name operand = .ok o ↔ o.name = name ∧ o.Operands operand := by
  constructor
  · intro ok
    unfold read at ok
    split at ok
    case h_9 => cases ok
    case h_7 | h_8 =>
      obtain ⟨list, read, rfl⟩ := map_eq_ok ok
      exact ⟨rfl, readList_eq_ok_iff.mp read⟩
    all_goals
      obtain ⟨s, read, rfl⟩ := map_eq_ok ok
      exact ⟨rfl, read⟩
  · rintro ⟨rfl, operands⟩
    cases o with
    | isIn list | notIn list => exact congrArg (Except.map _) (readList_eq_ok_iff.mpr operands)
    | _ => exact congrArg (Except.map _) operands

theorem takes_of_operands {o : Operator} {v : Json} (operands : o.Operands v) : Takes o.name v := by
  have list : ∀ {list : List Scalar} {name : String}, name ∈ ["$in", "$nin"] →
      (∃ items, v = .array items ∧
        List.Forall₂ (fun item s => Scalar.ofJson item = .ok s) items list) → Takes name v := by
    rintro list name named ⟨items, rfl, all⟩
    refine .list named fun item there => ?_
    exact Scalar.exists_ofJson_eq_ok_iff.mp (exists_forall₂_iff.mp ⟨list, all⟩ item there)
  cases o with
  | isIn operands' | notIn operands' => exact list (by simp [name]) operands
  | _ => exact .scalar (by simp [name]) (Scalar.exists_ofJson_eq_ok_iff.mp ⟨_, operands⟩)

theorem Takes.exists_operands {name : String} {v : Json} (h : Takes name v) :
    ∃ o : Operator, o.name = name ∧ o.Operands v := by
  cases h with
  | scalar named scalar =>
    obtain ⟨s, read⟩ := Scalar.exists_ofJson_eq_ok_iff.mpr scalar
    simp only [List.mem_cons, List.not_mem_nil, or_false] at named
    rcases named with rfl | rfl | rfl | rfl | rfl | rfl
    · exact ⟨.eq s, rfl, read⟩
    · exact ⟨.ne s, rfl, read⟩
    · exact ⟨.gt s, rfl, read⟩
    · exact ⟨.gte s, rfl, read⟩
    · exact ⟨.lt s, rfl, read⟩
    · exact ⟨.lte s, rfl, read⟩
  | @list items named scalars =>
    obtain ⟨list, all⟩ := exists_forall₂_iff.mpr fun item there =>
      Scalar.exists_ofJson_eq_ok_iff.mpr (scalars item there)
    simp only [List.mem_cons, List.not_mem_nil, or_false] at named
    rcases named with rfl | rfl
    · exact ⟨.isIn list, rfl, items, rfl, all⟩
    · exact ⟨.notIn list, rfl, items, rfl, all⟩

theorem exists_operands_iff {name : String} {v : Json} :
    (∃ o : Operator, o.name = name ∧ o.Operands v) ↔ Takes name v :=
  ⟨fun ⟨_, named, operands⟩ => named ▸ takes_of_operands operands, Takes.exists_operands⟩

end Operator

/-- What the pieces of a text between its points spell. -/
def Pattern.Spells (raw : String) (p : Pattern) : Prop :=
  raw ≠ "" ∧ ∃ pieces, String.intercalate "." pieces = raw ∧
    List.Forall₂ PatternStep.Spells pieces p

theorem Pattern.Spells.unique {raw : String} {p q : Pattern} (hp : Spells raw p)
    (hq : Spells raw q) : p = q :=
  Except.ok.inj ((read_eq_ok_iff.mpr hp).symm.trans (read_eq_ok_iff.mpr hq))

/-- A condition is what a member of a filter says. -/
structure Condition.Of (member : String × Json) (c : Condition) : Prop where
  path : Pattern.Spells member.1 c.pattern
  operators : ∃ entries, member.2 = .object entries ∧
    List.Forall₂ (fun entry o => o.name = entry.1 ∧ o.Operands entry.2) entries c.operators

namespace Filter

/-- A member that a filter may have: a pattern that is not too deep, and operators for it. -/
structure Member (maxDepth : Nat) (member : String × Json) : Prop where
  path : ∃ p, Pattern.Spells member.1 p ∧ p.length ≤ maxDepth
  operators : ∃ entries, member.2 = .object entries ∧ entries ≠ [] ∧
    ∀ entry ∈ entries, Operator.Takes entry.1 entry.2

structure WellFormed (maxDepth : Nat) (members : List (String × Json)) : Prop where
  each : ∀ member ∈ members, Member maxDepth member
  distinct : members.Pairwise fun a b => ∀ p, Pattern.Spells a.1 p → ¬ Pattern.Spells b.1 p

theorem readOperators_eq_ok_iff {raw : String} {json : Json} {operators : List Operator} :
    readOperators raw json = .ok operators ↔
      ∃ entries, json = .object entries ∧ entries ≠ [] ∧
        List.Forall₂ (fun entry o => o.name = entry.1 ∧ o.Operands entry.2) entries operators := by
  unfold readOperators
  split
  · refine ⟨fun refused => (by cases refused), ?_⟩
    rintro ⟨_, same, filled, _⟩
    cases same
    exact absurd rfl filled
  · rename_i entries filled
    refine mapM_eq_ok_iff.trans ?_
    simp only [Operator.read_eq_ok_iff]
    refine ⟨fun all => ⟨entries, rfl, filled, all⟩, ?_⟩
    rintro ⟨_, same, _, all⟩
    cases same
    exact all
  · rename_i other
    exact ⟨fun refused => (by cases refused), fun ⟨_, same, _⟩ => absurd same (other _)⟩

theorem ReadFrom.spells {maxDepth : Nat} {member : String × Json} {c : Condition}
    (h : ReadFrom maxDepth member c) : Pattern.Spells member.1 c.pattern :=
  Pattern.read_eq_ok_iff.mp h.pattern

theorem readFrom_iff {maxDepth : Nat} {member : String × Json} {c : Condition} :
    ReadFrom maxDepth member c ↔
      Condition.Of member c ∧ c.pattern.length ≤ maxDepth ∧ c.operators ≠ [] := by
  constructor
  · intro h
    obtain ⟨entries, object, -, all⟩ := readOperators_eq_ok_iff.mp h.operators
    exact ⟨⟨h.spells, entries, object, all⟩, h.shallow,
      readOperators_ne_nil h.operators⟩
  · rintro ⟨⟨path, entries, object, all⟩, shallow, asks⟩
    refine ⟨Pattern.read_eq_ok_iff.mpr path, shallow, readOperators_eq_ok_iff.mpr
      ⟨entries, object, ?_, all⟩⟩
    rintro rfl
    exact asks (List.forall₂_nil_left_iff.mp all)

theorem exists_readFrom_iff {maxDepth : Nat} {member : String × Json} :
    (∃ c, ReadFrom maxDepth member c) ↔ Member maxDepth member := by
  constructor
  · rintro ⟨c, read⟩
    obtain ⟨entries, object, filled, all⟩ := readOperators_eq_ok_iff.mp read.operators
    refine ⟨⟨c.pattern, read.spells, read.shallow⟩, entries, object, filled, ?_⟩
    exact fun entry there =>
      Operator.exists_operands_iff.mp (exists_forall₂_iff.mp ⟨c.operators, all⟩ entry there)
  · rintro ⟨⟨p, spelled, shallow⟩, entries, object, filled, takes⟩
    obtain ⟨operators, all⟩ := exists_forall₂_iff.mpr fun entry there =>
      Operator.exists_operands_iff.mpr (takes entry there)
    exact ⟨⟨p, operators⟩, Pattern.read_eq_ok_iff.mpr spelled, shallow,
      readOperators_eq_ok_iff.mpr ⟨entries, object, filled, all⟩⟩

/-- Members that are read are about one pattern exactly if their conditions are. -/
theorem readFrom_apart_iff {maxDepth : Nat} {members : List (String × Json)} {f : Filter}
    (all : List.Forall₂ (ReadFrom maxDepth) members f) :
    (members.Pairwise fun a b => ∀ p, Pattern.Spells a.1 p → ¬ Pattern.Spells b.1 p) ↔
      (f.map (·.pattern)).Nodup := by
  rw [List.Nodup, List.pairwise_map]
  refine pairwise_iff_of_forall₂ (fun a b c _ ha hb => ⟨fun apart same => ?_, ?_⟩) all
  · have other : Pattern.Spells b.1 c.pattern := same ▸ hb.spells
    exact apart c.pattern ha.spells other
  · intro differ p first second
    exact differ ((ha.spells.unique first).trans (hb.spells.unique second).symm)

theorem exists_ofJson_eq_ok_iff {maxDepth : Nat} {json : Json} :
    (∃ f, ofJson maxDepth json = .ok f) ↔
      ∃ members, json = .object members ∧ WellFormed maxDepth members := by
  constructor
  · rintro ⟨f, ok⟩
    obtain ⟨members, object, all, distinct⟩ := ofJson_eq_ok_iff.mp ok
    refine ⟨members, object, fun member there => ?_, (readFrom_apart_iff all).mpr distinct⟩
    exact exists_readFrom_iff.mp (exists_forall₂_iff.mp ⟨f, all⟩ member there)
  · rintro ⟨members, object, each, distinct⟩
    obtain ⟨f, all⟩ := exists_forall₂_iff.mpr fun member there =>
      exists_readFrom_iff.mpr (each member there)
    exact ⟨f, ofJson_eq_ok_iff.mpr ⟨members, object, all, (readFrom_apart_iff all).mp distinct⟩⟩

theorem exists_ofText_eq_ok_iff {maxDepth : Nat} {raw : String} :
    (∃ f, ofText maxDepth raw = .ok f) ↔
      ∃ members, Json.ofText .document raw = .ok (.object members) ∧
        WellFormed maxDepth members := by
  constructor
  · intro ok
    obtain ⟨json, read, ok⟩ := exists_bind_eq_ok_iff.mp ok
    obtain ⟨members, rfl, formed⟩ := exists_ofJson_eq_ok_iff.mp ok
    exact ⟨members, mapError_eq_ok read, formed⟩
  · rintro ⟨members, read, formed⟩
    refine exists_bind_eq_ok_iff.mpr ⟨.object members, ?_,
      exists_ofJson_eq_ok_iff.mpr ⟨members, rfl, formed⟩⟩
    rw [read]
    rfl

theorem under_nodup {f : Filter} (distinct : (f.map (·.pattern)).Nodup) (base : Path) :
    ((f.under base).map (·.pattern)).Nodup := by
  have moved : (f.under base).map (·.pattern) = (f.map (·.pattern)).map (Pattern.under base) := by
    simp only [under, List.map_map]
    rfl
  rw [moved, List.Nodup, List.pairwise_map]
  exact distinct.imp fun differ same => differ (List.append_cancel_left same)

theorem under_each (f : Filter) (base : Path) :
    List.Forall₂ (fun c moved => moved.operators = c.operators ∧
      ∀ path, moved.pattern.accepts path = true ↔
        ∃ rest, path = base ++ rest ∧ c.pattern.accepts rest = true) f (f.under base) := by
  refine List.forall₂_map_right_iff.mpr (List.forall₂_same.mpr fun c _ => ⟨rfl, fun path => ?_⟩)
  exact Pattern.accepts_under base c.pattern path

/-- Exactly the well-formed filters are read, and every other text is an invalid filter. What is read
is one condition for each member, about a pattern of its own that is neither empty nor too deep, and
with an operator. Below a base the patterns stay apart, and each fits the paths that go on
from the base as it fits. -/
theorem ofJson_exact (maxDepth : Nat) (json : Json) :
    ((∃ f, ofJson maxDepth json = .ok f) ↔
      ∃ members, json = .object members ∧ WellFormed maxDepth members) ∧
    (∀ f, ofJson maxDepth json = .ok f →
      (∃ members, json = .object members ∧ List.Forall₂ Condition.Of members f) ∧
      (f.map (·.pattern)).Nodup ∧
      (∀ c ∈ f, 1 ≤ c.pattern.length ∧ c.pattern.length ≤ maxDepth ∧ c.operators ≠ []) ∧
      ∀ base, ((f.under base).map (·.pattern)).Nodup ∧
        List.Forall₂ (fun c moved => moved.operators = c.operators ∧
          ∀ path, moved.pattern.accepts path = true ↔
            ∃ rest, path = base ++ rest ∧ c.pattern.accepts rest = true) f (f.under base)) ∧
    (∀ raw, (∃ f, ofText maxDepth raw = .ok f) ↔
      ∃ members, Json.ofText .document raw = .ok (.object members) ∧ WellFormed maxDepth members) ∧
    ∀ (σ : Type) (s : Service σ) raw,
      (∃ f, s.readFilter (some raw) = .ok (some f) ∧ ofText s.config.maxDepth raw = .ok f) ∨
        ∃ cause, s.readFilter (some raw) = .error (.invalidFilter cause) := by
  refine ⟨exists_ofJson_eq_ok_iff, fun f ok => ?_, fun raw => exists_ofText_eq_ok_iff,
    fun σ s raw => ?_⟩
  · obtain ⟨members, object, all, distinct⟩ := ofJson_eq_ok_iff.mp ok
    refine ⟨⟨members, object, all.imp fun _ _ read => (readFrom_iff.mp read).1⟩, distinct,
      fun c hc => ?_, fun base => ⟨under_nodup distinct base, under_each f base⟩⟩
    obtain ⟨member, -, read⟩ := exists_of_forall₂ all hc
    obtain ⟨-, shallow, asks⟩ := readFrom_iff.mp read
    exact ⟨List.length_pos_iff.mpr (Pattern.read_ne_nil read.pattern), shallow, asks⟩
  · have run : s.readFilter (some raw) =
        ((ofText s.config.maxDepth raw).mapError Error.invalidFilter).map some := by
      rw [Service.readFilter, Option.mapM_some]
      cases ofText s.config.maxDepth raw <;> rfl
    rw [run]
    cases ofText s.config.maxDepth raw with
    | ok f => exact .inl ⟨f, rfl, rfl⟩
    | error cause => exact .inr ⟨cause, rfl⟩

def Sample.twoPatterns : Json :=
  .object [("a.[7]", .object [("$gt", .int 1), ("$ne", .null)]),
    ("*.[000007]", .object [("$nin", .array [.bool true])])]

def Sample.twoPatternFilter : Filter :=
  [⟨[.exact (.field "a"), .exact (.index ⟨7, by decide⟩)],
      [.gt (.number (Double.ofInt 1)), .ne .null]⟩,
    ⟨[.wildcard, .exact (.index ⟨7, by decide⟩)], [.notIn [.bool true]]⟩]

def Sample.patternSpelledTwice : Json :=
  .object [("[1]", .object [("$eq", .null)]), ("[000001]", .object [("$eq", .null)])]

theorem ofJson_exact_levels :
    ofJson 2 Sample.twoPatterns = .ok Sample.twoPatternFilter ∧
      (∃ members, Sample.twoPatterns = .object members ∧
        List.Forall₂ Condition.Of members Sample.twoPatternFilter) ∧
      ((Sample.twoPatternFilter.under [.field "b"]).map (·.pattern)).Nodup ∧
      ofJson 2 Sample.patternSpelledTwice = .error (.repeatedPath "[000001]") ∧
      ¬ ∃ members, Sample.patternSpelledTwice = .object members ∧ WellFormed 2 members := by
  have read : ofJson 2 Sample.twoPatterns = .ok Sample.twoPatternFilter :=
    eq_ok_of_toOption (by decide +kernel)
  have refused : ofJson 2 Sample.patternSpelledTwice = .error (.repeatedPath "[000001]") := rfl
  obtain ⟨members, _, _, below⟩ :=
    (ofJson_exact 2 Sample.twoPatterns).2.1 Sample.twoPatternFilter read
  refine ⟨read, members, (below _).1, refused, fun formed => ?_⟩
  obtain ⟨f, ok⟩ := (ofJson_exact 2 Sample.patternSpelledTwice).1.mpr formed
  cases refused.symm.trans ok

end Filter

end LeafStore
