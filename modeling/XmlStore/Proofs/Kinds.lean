/-
What can be said of the value of an expression before it is evaluated. An
expression in which every name is known, every call has as many arguments as
its function accepts and selections stand where selections are needed has a
value wherever it is evaluated, and the kind of the value shows in its
outermost constructor.
-/
import XmlStore.Markup.Reader
import XmlStore.Path.Eval

namespace XmlStore

/-! ## Kinds -/

/-- The kind of value that an operator gives. -/
def BinaryOp.kind : BinaryOp → String
  | or | and | equal | notEqual | less | lessEqual | greater | greaterEqual => "boolean"
  | add | subtract | multiply | divide | modulo => "number"

namespace Function

/-- The kind of value that a function gives. -/
def kind : Function → String
  | startsWith | contains | boolean | not | always | never | lang => "boolean"
  | last | position | count | stringLength | number | sum | floor | ceiling | round => "number"
  | localName | name | namespaceUri | string | concat | substringBefore | substringAfter | substring
  | normalizeSpace | translate => "string"
  | id => "node-set"

/-- Whether an argument of the function has to be a selection. -/
def takesItems : Function → Bool
  | count | sum | localName | name | namespaceUri => true
  | _ => false

end Function

/-- The kind of the value of an expression; a variable that has no value has none. -/
def Expr.kind? (env : Env) : Expr → Option String
  | .number _ | .negate _ => some "number"
  | .literal _ => some "string"
  | .reference name => (env.values.lookup name).map Value.kind
  | .binary op _ _ => some op.kind
  | .call name _ => (Function.ofName? name).map Function.kind
  | .path _ | .rootPath _ | .filter _ _ | .pathFrom _ _ | .union _ _ => some "node-set"

/-- Whether an expression may stand where a selection is needed. -/
def Expr.Selects (env : Env) : Expr → Prop
  | .path _ | .rootPath _ | .filter _ _ | .pathFrom _ _ | .union _ _ => True
  | .call name _ => Function.ofName? name = some .id
  | .reference name => ∃ selected, env.values.lookup name = some (.items selected)
  | .number _ | .negate _ | .literal _ | .binary _ _ _ => False

theorem Expr.Selects.kind? {env : Env} {e : Expr} (h : e.Selects env) : e.kind? env = some "node-set" := by
  cases e with
  | path | rootPath | filter | pathFrom | union => rfl
  | call name arguments =>
    obtain h : Function.ofName? name = some .id := h
    rw [Expr.kind?, h]
    rfl
  | reference name =>
    obtain ⟨selected, bound⟩ := h
    rw [Expr.kind?, bound]
    rfl
  | number | negate | literal | binary => cases h

/-! ## Expressions that have a value -/

/-- A qualifier that stands for a namespace. -/
def Env.Binds (env : Env) (qualifier : String) : Prop :=
  qualifier = "xml" ∨ (env.namespaces.lookup qualifier).isSome = true

mutual

/-- An expression that uses only functions, variables and qualifiers that there are, and each as it
may be used. -/
def Expr.Formed (env : Env) : Expr → Prop
  | .number _ | .literal _ => True
  | .reference name => (env.values.lookup name).isSome = true
  | .binary _ a b => a.Formed env ∧ b.Formed env
  | .negate a => a.Formed env
  | .call name arguments =>
    (∃ f, Function.ofName? name = some f ∧ f.accepts arguments.length = true ∧
      (f.takesItems = true → ∀ a ∈ arguments, a.Selects env)) ∧ Expr.AllFormed env arguments
  | .path steps | .rootPath steps => Step.AllFormed env steps
  | .filter base predicates => base.Selects env ∧ base.Formed env ∧ Expr.AllFormed env predicates
  | .pathFrom base steps => base.Selects env ∧ base.Formed env ∧ Step.AllFormed env steps
  | .union a b => (a.Selects env ∧ a.Formed env) ∧ b.Selects env ∧ b.Formed env

def Expr.AllFormed (env : Env) : List Expr → Prop
  | [] => True
  | e :: rest => e.Formed env ∧ Expr.AllFormed env rest

def Step.AllFormed (env : Env) : List Step → Prop
  | [] => True
  | step :: rest => step.Formed env ∧ Step.AllFormed env rest

def Step.Formed (env : Env) : Step → Prop
  | .mk _ test predicates => (∀ qualifier ∈ test.qualifier?, env.Binds qualifier) ∧ Expr.AllFormed env predicates

end

/-! ## Results -/

/-- A computation that gives a result, of which something holds. -/
def Yields {α : Type} (result : Except PathError α) (P : α → Prop) : Prop :=
  ∃ a, result = .ok a ∧ P a

namespace Yields

variable {α β : Type} {result : Except PathError α} {P : α → Prop}

theorem ok {a : α} (h : P a) : Yields (.ok a) P := ⟨a, rfl, h⟩

theorem bind {Q : β → Prop} {next : α → Except PathError β} (h : Yields result P)
    (rest : ∀ a, P a → Yields (next a) Q) : Yields (result >>= next) Q := by
  obtain ⟨a, given, holds⟩ := h
  obtain ⟨b, given', holds'⟩ := rest a holds
  exact ⟨b, bind_eq_ok.2 ⟨a, given, given'⟩, holds'⟩

theorem imp {Q : α → Prop} (h : Yields result P) (weaker : ∀ a, P a → Q a) : Yields result Q := by
  obtain ⟨a, given, holds⟩ := h
  exact ⟨a, given, weaker a holds⟩

theorem weaken (h : Yields result P) : Yields result fun _ => True := h.imp fun _ _ => trivial

theorem mapM {l : List β} {f : β → Except PathError α} (each : ∀ b ∈ l, Yields (f b) fun _ => True) :
    Yields (l.mapM f) fun _ => True := by
  induction l with
  | nil =>
    rw [List.mapM_nil]
    exact .ok trivial
  | cons b l ih =>
    rw [List.forall_mem_cons] at each
    rw [List.mapM_cons]
    exact each.1.bind fun _ _ => (ih each.2).bind fun _ _ => .ok trivial

end Yields

section

variable {env : Env} {e : Expr} {v : Value}

theorem Value.yields_items? (h : v.kind = "node-set") : Yields v.items? fun _ => True := by
  cases v with
  | items selected => exact .ok trivial
  | boolean | number | text => exact absurd h (by rw [kind]; decide)

theorem Expr.Selects.yields_items? (h : e.Selects env) (kind : e.kind? env = some v.kind) :
    Yields v.items? fun _ => True :=
  Value.yields_items? (Option.some.inj (kind.symm.trans h.kind?))

theorem Env.yields_resolve {qualifier : Option String} (binds : ∀ q ∈ qualifier, env.Binds q) :
    Yields (env.resolve qualifier) fun _ => True := by
  cases qualifier with
  | none => exact .ok trivial
  | some q =>
    rw [resolve]
    split
    · exact .ok trivial
    · rename_i other
      obtain ⟨uri, bound⟩ := Option.isSome_iff_exists.mp ((binds q rfl).resolve_left other)
      rw [bound]
      exact .ok trivial

/-- A function gives a value of its kind, if it is given a selection where it takes one. -/
theorem Function.yields_apply {t : Tree} {focus : Focus} (f : Function) {arguments : List Value}
    (selections : f.takesItems = true → ∀ v ∈ arguments, v.kind = "node-set") :
    Yields (f.apply t focus arguments) fun v => v.kind = f.kind := by
  have subject (takes : f.takesItems = true) :
      Yields (arguments.headD (.items [focus.item])).items? fun _ => True := by
    cases arguments with
    | nil => exact .ok trivial
    | cons v rest => exact Value.yields_items? (selections takes v List.mem_cons_self)
  cases f with
  | count | sum | localName | name | namespaceUri => exact (subject rfl).bind fun _ _ => .ok rfl
  | _ => exact .ok rfl

/-- A predicate that has a value at every item sorts items out. -/
theorem yields_keepFrom {predicate : Focus → Except PathError Value}
    (total : ∀ focus, Yields (predicate focus) fun _ => True) {size : Nat} (position : Nat) (items : List Item) :
    Yields (keepFrom predicate size position items) fun _ => True := by
  induction items generalizing position with
  | nil => exact .ok trivial
  | cons item items ih => exact (total _).bind fun _ _ => (ih _).bind fun _ _ => .ok trivial

/-- What an operator gives for the values of its operands. -/
theorem Expr.yields_binary {op : BinaryOp} {a b : Expr} {focus : Focus}
    (left : Yields (a.eval env focus) fun _ => True) (right : Yields (b.eval env focus) fun _ => True) :
    Yields ((Expr.binary op a b).eval env focus) fun v => v.kind = op.kind := by
  cases op with
  | or =>
    rw [Expr.eval]
    refine left.bind fun x _ => ?_
    split
    · exact .ok rfl
    · exact right.bind fun _ _ => .ok rfl
  | and =>
    rw [Expr.eval]
    refine left.bind fun x _ => ?_
    split
    · exact right.bind fun _ _ => .ok rfl
    · exact .ok rfl
  | _ =>
    rw [Expr.eval]
    · exact left.bind fun _ _ => right.bind fun _ _ => .ok rfl
    all_goals
      intro same
      cases same

/-! ## Evaluation -/

mutual

/-- By recursion on the expression, together with lists of arguments, predicates and steps. -/
theorem Expr.yields_eval : (e : Expr) → e.Formed env → (focus : Focus) →
    Yields (e.eval env focus) fun v => e.kind? env = some v.kind
  | .number x, _, _ => by
    rw [Expr.eval]
    exact .ok rfl
  | .literal s, _, _ => by
    rw [Expr.eval]
    exact .ok rfl
  | .reference name, formed, _ => by
    rw [Expr.Formed] at formed
    obtain ⟨value, bound⟩ := Option.isSome_iff_exists.mp formed
    rw [Expr.eval, Expr.kind?, bound]
    exact .ok rfl
  | .binary op a b, formed, focus => by
    rw [Expr.Formed] at formed
    have left := Expr.yields_eval a formed.1 focus
    have right := Expr.yields_eval b formed.2 focus
    exact (Expr.yields_binary left.weaken right.weaken).imp fun _ kind => congrArg some kind.symm
  | .negate a, formed, focus => by
    rw [Expr.Formed] at formed
    rw [Expr.eval]
    exact (Expr.yields_eval a formed focus).bind fun _ _ => .ok rfl
  | .call name arguments, formed, focus => by
    rw [Expr.Formed] at formed
    obtain ⟨⟨f, known, accepts, selections⟩, formed⟩ := formed
    rw [Expr.eval, Expr.kind?, known]
    dsimp only
    rw [if_pos accepts]
    refine (Expr.yields_evalAll arguments formed focus).bind fun values kinds => ?_
    refine (f.yields_apply fun takes v hv => ?_).imp fun _ kind => congrArg some kind.symm
    obtain ⟨a, ha, kind⟩ := kinds v hv
    exact Option.some.inj (kind.symm.trans (selections takes a ha).kind?)
  | .path steps, formed, focus => by
    rw [Expr.Formed] at formed
    rw [Expr.eval]
    exact (Step.yields_walk steps formed _).bind fun _ _ => .ok rfl
  | .rootPath steps, formed, focus => by
    rw [Expr.Formed] at formed
    rw [Expr.eval]
    exact (Step.yields_walk steps formed _).bind fun _ _ => .ok rfl
  | .filter base predicates, formed, focus => by
    rw [Expr.Formed] at formed
    obtain ⟨selects, formed, predicatesFormed⟩ := formed
    rw [Expr.eval]
    refine (Expr.yields_eval base formed focus).bind fun v kind => ?_
    refine (selects.yields_items? kind).bind fun items _ => ?_
    exact (Expr.yields_keep predicates predicatesFormed items).bind fun _ _ => .ok rfl
  | .pathFrom base steps, formed, focus => by
    rw [Expr.Formed] at formed
    obtain ⟨selects, formed, stepsFormed⟩ := formed
    rw [Expr.eval]
    refine (Expr.yields_eval base formed focus).bind fun v kind => ?_
    refine (selects.yields_items? kind).bind fun items _ => ?_
    exact (Step.yields_walk steps stepsFormed items).bind fun _ _ => .ok rfl
  | .union a b, formed, focus => by
    rw [Expr.Formed] at formed
    obtain ⟨⟨selectsLeft, left⟩, selectsRight, right⟩ := formed
    rw [Expr.eval]
    refine (Expr.yields_eval a left focus).bind fun v kind => ?_
    refine (selectsLeft.yields_items? kind).bind fun _ _ => ?_
    refine (Expr.yields_eval b right focus).bind fun w kind' => ?_
    exact (selectsRight.yields_items? kind').bind fun _ _ => .ok rfl

theorem Expr.yields_evalAll : (arguments : List Expr) → Expr.AllFormed env arguments → (focus : Focus) →
    Yields (Expr.evalAll env arguments focus) fun values => ∀ v ∈ values, ∃ a ∈ arguments, a.kind? env = some v.kind
  | [], _, _ => by
    rw [Expr.evalAll]
    exact .ok fun _ none => absurd none List.not_mem_nil
  | e :: rest, formed, focus => by
    rw [Expr.AllFormed] at formed
    rw [Expr.evalAll]
    refine (Expr.yields_eval e formed.1 focus).bind fun v kind => ?_
    refine (Expr.yields_evalAll rest formed.2 focus).bind fun values kinds => .ok ?_
    refine List.forall_mem_cons.mpr ⟨⟨e, List.mem_cons_self, kind⟩, fun w hw => ?_⟩
    obtain ⟨a, ha, kind⟩ := kinds w hw
    exact ⟨a, List.mem_cons_of_mem _ ha, kind⟩

theorem Expr.yields_keep : (predicates : List Expr) → Expr.AllFormed env predicates → (items : List Item) →
    Yields (Expr.keep env predicates items) fun _ => True
  | [], _, _ => by
    rw [Expr.keep]
    exact .ok trivial
  | predicate :: rest, formed, items => by
    rw [Expr.AllFormed] at formed
    rw [Expr.keep]
    have total (focus : Focus) := (Expr.yields_eval predicate formed.1 focus).weaken
    exact (yields_keepFrom total 1 items).bind fun kept _ => Expr.yields_keep rest formed.2 kept

theorem Step.yields_walk : (steps : List Step) → Step.AllFormed env steps → (items : List Item) →
    Yields (Step.walk env steps items) fun _ => True
  | [], _, _ => by
    rw [Step.walk]
    exact .ok trivial
  | step :: rest, formed, items => by
    rw [Step.AllFormed] at formed
    rw [Step.walk]
    exact (Step.yields_take step formed.1 items).bind fun found _ => Step.yields_walk rest formed.2 found

theorem Step.yields_take : (step : Step) → step.Formed env → (items : List Item) →
    Yields (step.take env items) fun _ => True
  | .mk axis test predicates, formed, items => by
    rw [Step.Formed] at formed
    rw [Step.take]
    refine (Env.yields_resolve formed.1).bind fun uri _ => ?_
    have found : ∀ item ∈ items, Yields (Expr.keep env predicates
        ((env.tree.axis axis item).filter (test.admitsItem uri axis env.tree))) fun _ => True :=
      fun _ _ => Expr.yields_keep predicates formed.2 _
    exact (Yields.mapM found).bind fun _ _ => .ok trivial

end

/-- An expression in which all names are known and all parts stand where they may stand has a value
at every item, of the kind that its outermost constructor says. -/
theorem Env.value_of_formed (formed : e.Formed env) (item : Item) :
    ∃ v, env.value e item = .ok v ∧ e.kind? env = some v.kind :=
  e.yields_eval formed ⟨item, 1, 1⟩

/-- The number of nodes that `$n | id('x') | /p:a[position() < 2]` selects. -/
theorem Env.value_of_formed_count : ∃ v, Env.value ⟨.ofForest .nil, [("p", "u")], [("n", .items [.node 0])]⟩
    (.call "count" [.union (.union (.reference "n") (.call "id" [.literal "x"]))
      (.rootPath [.mk .child (.name ⟨some "p", "a"⟩)
        [.binary .less (.call "position" []) (.number 2)]])]) (.node 0) = .ok v ∧
    v.kind = "number" := by
  have count : Function.ofName? "count" = some .count := by decide +kernel
  have id : Function.ofName? "id" = some .id := by decide +kernel
  have position : Function.ofName? "position" = some .position := by decide +kernel
  refine (Env.value_of_formed ?_ (.node 0)).imp fun v found => ⟨found.1, ?_⟩
  · simp [Expr.Formed, Expr.AllFormed, Step.AllFormed, Step.Formed, Expr.Selects, Env.Binds, NodeTest.qualifier?,
      Function.accepts, Function.arity, Function.takesItems, count, id, position]
  · have kind := found.2
    rw [Expr.kind?, count] at kind
    exact (Option.some.inj kind).symm

end

end XmlStore
