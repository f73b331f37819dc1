import JsonEdit.Regex.Brackets

/-!
# Reading regular expressions

Characters, sets of them, the anchors `^` and `$`, groups, `|` and the repetitions `*`, `+` and
`?`, each of which a `?` may follow without a change of meaning.

* `Group`: a group whose end has not been read;
* `parseRest`: reads to the end with the groups that are open;
* `Regex.parse?`: an expression from its text.
-/

namespace JsonEdit

/-- A group being read: the alternatives before the last bar, and the parts after it, last first. -/
structure Group where
  alternatives : List Expr
  parts : List Expr

namespace Group

/-- Nothing read yet. -/
def new : Group := ⟨[], []⟩

/-- Adds a part. -/
def add (g : Group) (e : Expr) : Group := { g with parts := e :: g.parts }

/-- The parts after the last bar, as one expression. -/
def sequence (g : Group) : Expr :=
  g.parts.foldl (fun e part => if e = .empty then part else .seq part e) .empty

/-- Ends an alternative. -/
def bar (g : Group) : Group := ⟨g.sequence :: g.alternatives, []⟩

/-- The whole group. -/
def expr (g : Group) : Expr :=
  g.alternatives.foldl (fun e alternative => .alt alternative e) g.sequence

/-- Applies a repetition to the last part. -/
def onLast (g : Group) (f : Expr → Expr) : Option Group :=
  match g.parts with
  | [] => none
  | part :: parts => some { g with parts := f part :: parts }

end Group

/-- One time or more. -/
def Expr.plus (e : Expr) : Expr := .seq e (.star e)

/-- Once or not at all. -/
def Expr.optional (e : Expr) : Expr := .alt e .empty

/-- Reads the rest of an expression; the innermost open group comes first. -/
def parseRest (outer : List Group) (g : Group) : List Regex.Token → Option Expr
  | [] => if outer.isEmpty then some g.expr else none
  | .chars set :: rest => parseRest outer (g.add (.chars set)) rest
  | .sign c :: rest =>
    match c, rest with
    | '(', .sign '?' :: .sign ':' :: rest => parseRest (g :: outer) .new rest
    | '(', .sign '?' :: _ => none
    | '(', rest => parseRest (g :: outer) .new rest
    | ')', rest =>
      match outer with
      | [] => none
      | parent :: outer => parseRest outer (parent.add g.expr) rest
    | '|', rest => parseRest outer g.bar rest
    | '*', .sign '?' :: rest => (g.onLast .star).bind fun g => parseRest outer g rest
    | '*', rest => (g.onLast .star).bind fun g => parseRest outer g rest
    | '+', .sign '?' :: rest => (g.onLast .plus).bind fun g => parseRest outer g rest
    | '+', rest => (g.onLast .plus).bind fun g => parseRest outer g rest
    | '?', .sign '?' :: rest => (g.onLast .optional).bind fun g => parseRest outer g rest
    | '?', rest => (g.onLast .optional).bind fun g => parseRest outer g rest
    | '.', rest => parseRest outer (g.add (.chars .visible)) rest
    | '^', rest => parseRest outer (g.add .atStart) rest
    | '$', rest => parseRest outer (g.add .atEnd) rest
    | '{', _ => none
    | c, rest => parseRest outer (g.add (.chars (.single c))) rest

/-- The expression a text stands for. -/
def Regex.parse? (source : String) : Option Regex := do
  let tokens ← Regex.tokens? source.toList
  let tokens ← Regex.readSets [] tokens
  return ⟨source, ← parseRest [] .new tokens⟩

end JsonEdit
