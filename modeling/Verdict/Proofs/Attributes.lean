import Verdict.Proofs.History
import Verdict.Proofs.LeftDeep
import Verdict.Proofs.Verdicts

/-!
# What a verdict takes from a record

A clause looks up one attribute, under its own key, and holds only of a value that it finds there.
Joins gain by every clause that holds. So a record with more attributes satisfies no fewer trees
(`evaluate_grows`), and the answer for a tree stays the same under every change to a record that
leaves alone what stands under the names in its clauses (`evaluate_reads_attributes`).
-/

namespace Verdict

open Json

/-! ## Records with other attributes -/

namespace Json.Value

/-- Every attribute of the record is an attribute of the other one, with the same value. -/
def Within (record other : Value) : Prop :=
  ∀ name value, record.attribute? name = some value → other.attribute? name = some value

/-- Under each name the records have one value, or none of them has any. -/
def AgreeOn (names : List String) (record other : Value) : Prop :=
  ∀ name ∈ names, record.attribute? name = other.attribute? name

/-- The record without the attributes that are not kept. -/
def restrict (keep : String → Bool) : Value → Value
  | .object members => .object (members.filter fun member => keep member.1)
  | value => value

/-- The value without what stands inside it, if it is an array or an object. -/
def hollow : Value → Value
  | .array _ => .array []
  | .object _ => .object []
  | value => value

/-- The record without what stands inside its attributes. -/
def shallow : Value → Value
  | .object members => .object (members.map fun member => (member.1, member.2.hollow))
  | value => value

theorem attribute?_restrict (keep : String → Bool) (record : Value) (name : String) :
    (record.restrict keep).attribute? name =
      if keep name then record.attribute? name else none := by
  cases record with
  | object members =>
    show (members.filter fun member => keep member.1).lookup name =
      if keep name then members.lookup name else none
    induction members with
    | nil => simp
    | cons member members ih =>
      obtain ⟨key, value⟩ := member
      by_cases hname : name = key
      · subst hname
        cases hkeep : keep name with
        | true => simp [hkeep]
        | false => simpa [hkeep] using ih
      · have hne : (name == key) = false := beq_false_of_ne hname
        cases hkeep : keep key with
        | true => simpa [hkeep, List.lookup_cons, hne] using ih
        | false => simpa [hkeep, List.lookup_cons, hne] using ih
  | _ => exact (ite_self none).symm

theorem attribute?_shallow (record : Value) (name : String) :
    record.shallow.attribute? name = (record.attribute? name).map hollow := by
  cases record with
  | object members =>
    show (members.map fun member => (member.1, member.2.hollow)).lookup name =
      (members.lookup name).map hollow
    induction members with
    | nil => rfl
    | cons member members ih =>
      rw [List.map_cons, List.lookup_cons, List.lookup_cons, ih]
      split <;> rfl
  | _ => rfl

theorem restrict_within (keep : String → Bool) (record : Value) :
    (record.restrict keep).Within record := by
  intro name value hvalue
  rw [attribute?_restrict] at hvalue
  split at hvalue
  · exact hvalue
  · cases hvalue

theorem restrict_agreeOn (names : List String) (record : Value) :
    (record.restrict (names.contains ·)).AgreeOn names record := by
  intro name hname
  rw [attribute?_restrict, if_pos (List.contains_iff_mem.mpr hname)]

end Json.Value

theorem Comparator.compare_hollow (comparator : Comparator) (value : Value) (literal : String) :
    comparator.compare value.hollow literal = comparator.compare value literal := by
  cases value <;> rfl

/-! ## Clauses -/

namespace Clause

/-- The name that a clause looks up; one that cannot be read looks nothing up. -/
def nameOf? (text : String) : Option String :=
  match parse text with
  | .ok clause => some clause.name
  | .error _ => none

theorem nameOf?_of_ok {text : String} {clause : Clause} (h : parse text = .ok clause) :
    nameOf? text = some clause.name := by
  unfold nameOf?
  rw [h]

theorem verdict_congr {record other : Value} {text : String}
    (h : ∀ name, nameOf? text = some name → record.attribute? name = other.attribute? name) :
    verdict record text = verdict other text := by
  unfold verdict
  split
  · next clause hparse =>
    rw [holds, holds, h clause.name (nameOf?_of_ok hparse)]
  · rfl

theorem verdict_shallow (record : Value) (text : String) :
    verdict record.shallow text = verdict record text := by
  unfold verdict
  split
  · next clause _ =>
    rw [holds, holds, Value.attribute?_shallow]
    cases record.attribute? clause.name with
    | none => rfl
    | some value => exact Comparator.compare_hollow _ _ _
  · rfl

/-- A clause that holds of a record holds of every record with more attributes. -/
theorem HoldsOf.mono {record other : Value} {text : String} (h : HoldsOf record text)
    (hwithin : record.Within other) : HoldsOf other text := by
  obtain ⟨clause, value, hparse, hvalue, hcompare⟩ := h
  exact ⟨clause, value, hparse, hwithin _ _ hvalue, hcompare⟩

end Clause

/-! ## Trees -/

/-- The names that the operands among tokens look up. -/
def Token.attributes (tokens : List Token) : List String :=
  (operands tokens).filterMap Clause.nameOf?

namespace Tree

/-- The names that the clauses of a tree look up. -/
def attributes (tree : Tree) : List String :=
  tree.clauses.filterMap Clause.nameOf?

theorem mem_attributes {tree : Tree} {clause name : String} (hclause : clause ∈ tree.clauses)
    (hname : Clause.nameOf? clause = some name) : name ∈ tree.attributes :=
  List.mem_filterMap.mpr ⟨clause, hclause, hname⟩

theorem attributes_of_parse? {rule : String} {tree : Tree} (h : parse? rule = some tree) :
    tree.attributes = Token.attributes (Token.ofRule rule) := by
  have hreads := Growth.reads_of_separated (Token.separated_ofRule rule)
  rw [attributes, (hreads.folds tree h).clauses_eq, Token.attributes]

/-- A formula of conjunctions and disjunctions gains by what holds. -/
theorem Satisfied.mono {holds holds' : String → Prop} (h : ∀ clause, holds clause → holds' clause)
    {tree : Tree} (hsat : tree.Satisfied holds) : tree.Satisfied holds' := by
  induction tree with
  | leaf clause => exact h clause hsat
  | join connective left right ihl ihr =>
    cases connective with
    | and => exact ⟨ihl hsat.1, ihr hsat.2⟩
    | or => exact Or.imp ihl ihr hsat

theorem Satisfied.exists_clause {holds : String → Prop} {tree : Tree}
    (hsat : tree.Satisfied holds) : ∃ clause ∈ tree.clauses, holds clause := by
  induction tree with
  | leaf clause => exact ⟨clause, List.mem_singleton_self clause, hsat⟩
  | join connective left right ihl ihr =>
    have hleft : left.Satisfied holds → ∃ clause ∈ left.clauses ++ right.clauses, holds clause := by
      intro h
      obtain ⟨clause, hmem, hholds⟩ := ihl h
      exact ⟨clause, List.mem_append_left _ hmem, hholds⟩
    cases connective with
    | and => exact hleft hsat.1
    | or =>
      rcases hsat with hsat | hsat
      · exact hleft hsat
      · obtain ⟨clause, hmem, hholds⟩ := ihr hsat
        exact ⟨clause, List.mem_append_right _ hmem, hholds⟩

theorem evaluate_congr {record other : Value} {tree : Tree}
    (h : ∀ clause ∈ tree.clauses, Clause.verdict record clause = Clause.verdict other clause) :
    evaluate (some tree) record = evaluate (some tree) other := by
  have hverdict : tree.verdict record = tree.verdict other := by
    induction tree with
    | leaf clause => exact h clause (List.mem_singleton_self clause)
    | join connective left right ihl ihr =>
      rw [verdict, verdict, ihl fun clause hc => h clause (List.mem_append_left _ hc),
        ihr fun clause hc => h clause (List.mem_append_right _ hc)]
  rw [evaluate, evaluate, check_eq, check_eq, hverdict]

theorem evaluate_eq_of_agreeOn {record other : Value} {tree : Tree}
    (h : record.AgreeOn tree.attributes other) :
    evaluate (some tree) record = evaluate (some tree) other := by
  refine evaluate_congr fun clause hclause => Clause.verdict_congr fun name hname => ?_
  exact h name (mem_attributes hclause hname)

theorem evaluate_eq_ok_iff {record : Value} {tree : Tree} {answer : Bool} :
    evaluate (some tree) record = .ok answer ↔
      tree.refusal? = none ∧ tree.verdict record = answer := by
  rw [evaluate, check_eq]
  cases tree.refusal? <;> simp

theorem evaluate_eq_true_iff {record : Value} {tree : Tree} :
    evaluate (some tree) record = .ok true ↔
      tree.refusal? = none ∧ tree.Satisfied (Clause.HoldsOf record) := by
  rw [evaluate_eq_ok_iff, verdict_eq_true_iff]

theorem evaluate_eq_false_iff {record : Value} {tree : Tree} :
    evaluate (some tree) record = .ok false ↔
      tree.refusal? = none ∧ ¬tree.Satisfied (Clause.HoldsOf record) := by
  rw [evaluate_eq_ok_iff, ← verdict_eq_true_iff, Bool.not_eq_true]

theorem evaluate_ne_true {record : Value} {tree : Tree}
    (h : ∀ name ∈ tree.attributes, record.attribute? name = none) :
    evaluate (some tree) record ≠ .ok true := by
  intro htrue
  obtain ⟨clause, hclause, read, value, hparse, hvalue, -⟩ :=
    (evaluate_eq_true_iff.mp htrue).2.exists_clause
  rw [h read.name (mem_attributes hclause (Clause.nameOf?_of_ok hparse))] at hvalue
  cases hvalue

/-- A tree that holds of a record holds of every record with more attributes. So no attribute can
be taken away to make it true, and it is not true of a record without any attribute that it looks
up, such as an empty one or a value that is no object. -/
theorem evaluate_grows (tree : Tree) (record : Value) :
    (∀ other, record.Within other → evaluate (some tree) record = .ok true →
        evaluate (some tree) other = .ok true) ∧
      (∀ keep, evaluate (some tree) record = .ok false →
        evaluate (some tree) (record.restrict keep) = .ok false) ∧
      ((∀ name ∈ tree.attributes, record.attribute? name = none) →
        evaluate (some tree) record ≠ .ok true) ∧
      evaluate (some tree) (.object []) ≠ .ok true ∧
      ((∀ members, record ≠ .object members) → evaluate (some tree) record ≠ .ok true) := by
  have hmono : ∀ {record other : Value}, record.Within other →
      tree.Satisfied (Clause.HoldsOf record) → tree.Satisfied (Clause.HoldsOf other) :=
    fun hwithin hsat => hsat.mono fun _ hholds => hholds.mono hwithin
  refine ⟨?_, ?_, evaluate_ne_true, evaluate_ne_true fun _ _ => rfl, ?_⟩
  · intro other hwithin htrue
    obtain ⟨hread, hsat⟩ := evaluate_eq_true_iff.mp htrue
    exact evaluate_eq_true_iff.mpr ⟨hread, hmono hwithin hsat⟩
  · intro keep hfalse
    obtain ⟨hread, hnot⟩ := evaluate_eq_false_iff.mp hfalse
    exact evaluate_eq_false_iff.mpr
      ⟨hread, fun hsat => hnot (hmono (record.restrict_within keep) hsat)⟩
  · intro hrecord
    refine evaluate_ne_true fun name _ => ?_
    cases record with
    | object members => exact absurd rfl (hrecord members)
    | _ => rfl

/-- One of two attributes is enough for a disjunction, the other may come later or be taken away,
and without both not even the negated equality holds. -/
theorem evaluate_grows_negated :
    evaluate (some (.join .or (.leaf "a != 1") (.leaf "b = 2")))
        (.object [("b", .null), ("a", .string "2")]) = .ok true ∧
      evaluate (some (.join .and (.leaf "a != 1") (.leaf "b = 2")))
        ((Value.object [("b", .null), ("a", .string "2")]).restrict (· == "a")) = .ok false ∧
      evaluate (some (.leaf "a != 1")) (.object [("b", .null)]) ≠ .ok true ∧
      evaluate (some (.leaf "a != 1")) (.string "a") ≠ .ok true := by
  refine ⟨(evaluate_grows _ (.object [("a", .string "2")])).1 _ ?_ (by decide +kernel),
    (evaluate_grows _ _).2.1 _ (by decide +kernel), (evaluate_grows _ _).2.2.1 ?_,
    (evaluate_grows _ _).2.2.2.2 nofun⟩
  · intro name value hvalue
    rw [Value.attribute?, List.lookup_cons] at hvalue
    split at hvalue
    · next hname =>
      rw [eq_of_beq hname, ← hvalue]
      rfl
    · cases hvalue
  · have hnames : attributes (.leaf "a != 1") = ["a"] := by decide +kernel
    rw [hnames]
    exact List.forall_mem_singleton.mpr rfl

/-- The answer for a tree depends on the record through the names in its clauses only, each looked
up as a key of the record itself, dots included: of the record the members under these keys are
enough, without what stands inside them. For a rule these are the names in its operands, whatever
else its text holds, and a check by an engine that has taken any steps depends on no more. -/
theorem evaluate_reads_attributes (tree : Tree) (rule : String) (record : Value)
    (steps : List Session.Step) :
    (∀ other, record.AgreeOn tree.attributes other →
        evaluate (some tree) record = evaluate (some tree) other) ∧
      evaluate (some tree) (record.restrict (tree.attributes.contains ·)).shallow =
        evaluate (some tree) record ∧
      ∀ other, record.AgreeOn (Token.attributes (Token.ofRule rule)) other →
        evaluate (parse? rule) record = evaluate (parse? rule) other ∧
          ((Session.after steps).check rule record).1 =
            ((Session.after steps).check rule other).1 := by
  refine ⟨fun other h => evaluate_eq_of_agreeOn h, ?_, fun other h => ?_⟩
  · calc evaluate (some tree) (record.restrict (tree.attributes.contains ·)).shallow
        = evaluate (some tree) (record.restrict (tree.attributes.contains ·)) :=
          evaluate_congr fun clause _ => Clause.verdict_shallow _ clause
      _ = evaluate (some tree) record :=
          evaluate_eq_of_agreeOn (record.restrict_agreeOn tree.attributes)
  · have heval : evaluate (parse? rule) record = evaluate (parse? rule) other := by
      cases hparse : parse? rule with
      | none => rfl
      | some tree =>
        rw [← attributes_of_parse? hparse] at h
        exact evaluate_eq_of_agreeOn h
    rw [Session.check_after, Session.check_after]
    exact ⟨heval, heval⟩

/-- A key with a dot is no path, and text that is no operand looks nothing up. -/
theorem evaluate_reads_attributes_dotted :
    evaluate (some (.leaf "user.age > 18"))
        (.object [("user", .object [("age", .string "3")]), ("user.age", .string "21")]) =
      evaluate (some (.leaf "user.age > 18")) (.object [("user.age", .string "21")]) ∧
    evaluate (parse? "user.age > 18 OR secret == 1") (.object [("secret", .string "1")]) =
      evaluate (parse? "user.age > 18 OR secret == 1")
        (.object [("user", .object [("age", .string "21")])]) := by
  have hnames : attributes (.leaf "user.age > 18") = ["user.age"] := by decide +kernel
  have hrule : Token.attributes (Token.ofRule "user.age > 18 OR secret == 1") = ["user.age"] := by
    decide +kernel
  refine ⟨(evaluate_reads_attributes _ "" _ []).1 _ ?_,
    ((evaluate_reads_attributes (.leaf "") _ _ []).2.2 _ ?_).1⟩
  · rw [hnames]
    exact List.forall_mem_singleton.mpr rfl
  · rw [hrule]
    exact List.forall_mem_singleton.mpr rfl

end Tree

end Verdict
