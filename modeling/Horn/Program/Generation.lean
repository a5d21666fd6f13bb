import Horn.Program

/-!
Generating examples.  The instances of an atom are made from the values of its variables' types and
labelled by proving them: what holds is a positive example and everything else a negative one.  The
values of a type are the arguments of its ground facts.
-/

namespace Horn

namespace Substitution

/-- Binds a variable to each of its values in turn, in every row.  A row in which a value cannot be
bound is left out. -/
def bindEach (rows : List Substitution) (column : Var × List Term) : List Substitution :=
  rows.flatMap fun σ => column.2.filterMap fun t => (σ.bind column.1 t).toOption

/-- Every way to bind variables to one of their values each.  The values of the first variable change
last. -/
def product (columns : List (Var × List Term)) : List Substitution := columns.foldl bindEach [empty]

end Substitution

namespace Examples

/-- Facts labelled by a test: first those that pass it, and apart from them the others, both in the
order given. -/
def labelled {α : Type} (fact : α → Clause) (holds : α → Bool) (instances : List α) : Examples :=
  let (yes, no) := instances.partition holds
  ⟨yes.map fact, no.map fact⟩

end Examples

/-- A text of generator rules and modes, taken apart: the rules, and the head modes in order. -/
structure Generator where
  rules : Store
  heads : List Mode

namespace Generator

def empty : Generator := ⟨Store.empty, []⟩

/-- Takes one statement.  A mode or a determination is declared to the program as well. -/
def declare (gen : Generator) (p : Program) : Statement → Except Failure (Generator × Program)
  | .clause c => do
    let (_, rules) ← gen.rules.add c
    return ({ gen with rules := rules }, p)
  | .mode m =>
    .ok (if m.kind = .head then { gen with heads := gen.heads ++ [m] } else gen, p.addMode m)
  | .determination d => return (gen, ← p.addDetermination d)
  | other => .error (.notGenerator other)

/-- Takes statements one after the other, up to the first that fails. -/
def declareAll (gen : Generator) (p : Program) :
    List Statement → Except Failure Generator × Program
  | [] => (.ok gen, p)
  | st :: rest =>
    match gen.declare p st with
    | .error e => (.error e, p)
    | .ok (gen, p) => declareAll gen p rest

end Generator

namespace Program

/-- The values of a type: the arguments of its ground facts in the background. -/
def domainValues (p : Program) (typeName : String) : List Term :=
  let facts := (p.knowledge.candidates ⟨typeName, [.var (Var.named "X")]⟩).filter Clause.isFact
  (facts.filterMap fun c => c.headPredicate.bind fun h => h.args.head?).filter fun t => isGround t

/-- Every instance of a head mode over the values of its types. -/
def instancesOf (p : Program) (m : Mode) : List Predicate :=
  let (template, _) := m.instantiate Substitution.empty
  let columns := template.slots.map fun s => (s.var, p.domainValues s.placeholder.typeName)
  (Substitution.product columns).map fun σ => σ.apply template.atom

/-- Adds generated examples to those of the program. -/
def appendExamples (p : Program) (e : Examples) : Program :=
  { p with examples := p.examples.append e }

/-- Labels every instance of the head modes of a text by the background and the rules of the text.
The rules are not kept. -/
def generateExamples (p : Program) (text : String) : Except Failure Examples × Program :=
  match Source.parseStatements text with
  | .error e => (.error (.parse e), p)
  | .ok statements =>
    match Generator.empty.declareAll p statements with
    | (.error e, p) => (.error e, p)
    | (.ok gen, p) =>
      let lookup := ((LayeredStore.ofStore p.knowledge).under .owned gen.rules).candidates
      let fact (i : Predicate) : Clause := Clause.fact (.predicate i)
      let holds (i : Predicate) : Bool :=
        Goal.succeeds [.atom (.predicate i)] lookup p.options.h
      let generated := Examples.labelled fact holds (gen.heads.flatMap p.instancesOf)
      (.ok generated, p.appendExamples generated)

/-- The values of a variable of the head, by the type given for its name. -/
def columnOf (p : Program) (domains : List (String × String)) (v : Var) :
    Except Failure (Var × List Term) :=
  match domains.lookup v.symbol with
  | none => .error (.missingDomain v)
  | some typeName => .ok (v, p.domainValues typeName)

/-- Tries to label every instance of a clause's head by its body.  The answer comes with the program as
it is then. -/
def labelInstances (p : Program) (c : Clause) (domains : List (String × String)) :
    Except Failure Examples × Program :=
  match c.headPredicate with
  | none => (.error (.headlessClause c), p)
  | some head =>
    match («variables» head).mapM (p.columnOf domains) with
    | .error why => (.error why, p)
    | .ok columns =>
      let fact (σ : Substitution) : Clause := Clause.fact (.predicate (σ.apply head))
      let holds (σ : Substitution) : Bool :=
        Goal.succeeds ((σ.apply c.body).map Literal.atom) p.knowledge.candidates p.options.h
      let generated := Examples.labelled fact holds (Substitution.product columns)
      (.ok generated, p.appendExamples generated)

/-- Labels every instance of a clause's head by its body, or fails. -/
def generateExamplesFromClause (p : Program) (c : Clause) (domains : List (String × String)) :
    Except Failure (Examples × Program) :=
  let (answer, q) := p.labelInstances c domains
  answer.map fun e => (e, q)

end Program
end Horn
