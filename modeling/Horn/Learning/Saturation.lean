import Horn.Learning.BottomClause
import Horn.Learning.Example
import Horn.Mode.Table
import Horn.Options

/-!
Saturation.  The head of an example is lifted through its mode: terms at input and output places
become variables, the same term always the same one.  Then in each round every body mode is called
with every choice of inputs among the terms found last, and its ground answers are lifted in the
same way and added to the body.
-/

namespace Horn

/-- The variables that stand for terms, and their texts. -/
structure TermNames where
  varOf : Std.HashMap Term Var
  used : Std.TreeSet String

namespace TermNames

def empty : TermNames := ⟨∅, ∅⟩

/-- The variable of a term.  A new one is named after the term, with the first tally that gives a
text not in use. -/
def name (names : TermNames) (t : Term) : Var × TermNames :=
  match names.varOf[t]? with
  | some v => (v, names)
  | none =>
    let v : Var := ⟨t.variableSymbol, Scope.firstFree t.variableSymbol names.used 0⟩
    (v, ⟨names.varOf.insert t v, names.used.insert v.text⟩)

end TermNames

/-- A list with one more term, unless it is there already. -/
def withTerm (ts : List Term) (t : Term) : List Term := if ts.contains t then ts else ts ++ [t]

/-- What a template's slots become: an image for each variable, the flow of variables, and the terms
at the places of one sign. -/
structure Lifting where
  names : TermNames
  images : List (Var × Term)
  link : Link
  /-- Terms that later atoms may take as inputs. -/
  found : List Term

namespace Lifting

/-- Lifts the term of one slot.  Constants stay as they are; the term is noted when its slot has the
given sign. -/
def slot (noted : Sign) (l : Lifting) (s : Slot × Term) : Lifting :=
  let (⟨v, p⟩, t) := s
  match p.sign with
  | .constant => { l with images := (v, t) :: l.images }
  | sign =>
    let (w, names) := l.names.name t
    { names := names
      images := (v, .var w) :: l.images
      link := if sign = .input then { l.link with inputs := l.link.inputs ++ [w] }
        else { l.link with outputs := l.link.outputs ++ [w] }
      found := if sign = noted then withTerm l.found t else l.found }

/-- Lifts the terms of all slots. -/
def slots (noted : Sign) (names : TermNames) (found : List Term) (terms : List (Slot × Term)) :
    Lifting :=
  terms.foldl (slot noted) ⟨names, [], ⟨[], []⟩, found⟩

/-- The atom of a template with the images of its slots. -/
def atom (l : Lifting) (p : Predicate) : Predicate := replaceVars (fun v => l.images.lookup v) p

end Lifting

/-- The atoms found so far with their links. -/
structure Saturation where
  names : TermNames
  atoms : List (Predicate × Link)

/-- All tuples of so many elements, in the order of their places. -/
def tuples {α : Type} (pool : List α) : Nat → List (List α)
  | 0 => [[]]
  | n + 1 => pool.flatMap fun a => (tuples pool n).map (a :: ·)

namespace Saturation

/-- Adds one ground answer: the term of every slot, lifted, and the terms that it produced. -/
def addAnswer (template : Template) (state : Saturation × List Term) (terms : List Term) :
    Saturation × List Term :=
  let (s, produced) := state
  if terms.all fun t => isGround t then
    let l := Lifting.slots .output s.names produced (template.slots.zip terms)
    let atom := l.atom template.atom
    let atoms := if s.atoms.any fun a => a.1 == atom then s.atoms else s.atoms ++ [(atom, l.link)]
    (⟨l.names, atoms⟩, l.found)
  else state

/-- The terms that the slots of a template have in the answers of a call with the given inputs. -/
def answers (lookup : Lookup) (steps most : Nat) (template : Template) (scope : Substitution)
    (inputs : List Term) : List (List Term) :=
  let places := (template.slots.filter fun s => s.placeholder.sign == .input).map Slot.var
  match scope.bindAll (places.zip inputs) with
  | .error _ => []
  | .ok σ =>
    let goal : Goal := [.atom (.predicate (σ.apply template.atom))]
    let (found, _) := goal.solutions lookup steps σ (some most)
    found.map fun answer => template.slots.map fun s => answer.apply (σ.apply (Term.var s.var))

/-- Calls one body mode with every choice of inputs. -/
def expand (lookup : Lookup) (options : Options) (available : List Term)
    (state : Saturation × List Term) (m : Mode) : Saturation × List Term :=
  let (template, scope) := m.instantiate Substitution.empty
  let width := (template.slots.filter fun s => s.placeholder.sign == .input).length
  let most := m.recall.limit options.maxRecall
  (tuples available width).foldl (fun state inputs =>
    (answers lookup options.h most template scope inputs).foldl (addAnswer template) state) state

/-- Rounds of calling every body mode with the terms that the round before produced. -/
def rounds (lookup : Lookup) (options : Options) (modes : List Mode) :
    Nat → List Term → Saturation → Saturation
  | 0, _, s => s
  | n + 1, available, s =>
    let (s, produced) := modes.foldl (expand lookup options available) (s, [])
    rounds lookup options modes n produced s

/-- Lifts the head of an example through its mode. -/
def liftHead (m : Mode) (p : Predicate) : Except Failure (Predicate × Lifting) :=
  let (template, scope) := m.instantiate (Substitution.empty.addVariables p)
  match scope.unifyPredicates template.atom p with
  | .error why => .error (.misfit p m why)
  | .ok σ =>
    let terms := template.slots.map fun s => (s, σ.apply (Term.var s.var))
    let l := Lifting.slots .input TermNames.empty [] terms
    .ok (l.atom template.atom, l)

end Saturation

namespace BottomClause

/-- The bottom clause of an example.  The example's body atoms count as facts. -/
def ofExample (c : Clause) (modes : ModeTable) (background : LayeredStore) (options : Options) :
    Except Failure BottomClause := do
  match c.headPredicate with
  | none => .error (.headlessExample c)
  | some p =>
    let m ← modes.headMode p.signature
    let facts ← Store.ofClauses (c.body.map Clause.fact)
    let lookup := (background.under .owned facts).candidates
    let (head, l) ← Saturation.liftHead m p
    let s := Saturation.rounds lookup options (modes.bodyModesFor m) options.i l.found ⟨l.names, []⟩
    let body := s.atoms.map fun a => Atom.predicate a.1
    let bottom : BottomClause := ⟨.rule (.predicate head) body, l.link, s.atoms.map Prod.snd⟩
    return if options.genericVariableNames then bottom.withGenericNames else bottom

end BottomClause
end Horn
