import JsonEdit.Regex.Basic

/-!
# Matching regular expressions

The text is read once. After each character there are finitely many expressions left that the rest
of the text may still match; they are the partial derivatives of the expression.

* `Expr.nullable`: the empty text matches here;
* `Expr.derive`: what is left after a character;
* `Expr.search`, `Regex.foundIn`: some part of the text matches.
-/

namespace JsonEdit

namespace Expr

/-- The empty text matches, at a place that is or is not the start and the end of the text. -/
def nullable (start finish : Bool) : Expr → Bool
  | .empty => true
  | .chars _ => false
  | .atStart => start
  | .atEnd => finish
  | .seq a b => a.nullable start finish && b.nullable start finish
  | .alt a b => a.nullable start finish || b.nullable start finish
  | .star _ => true

/-- One expression after another; nothing before an expression is left out. -/
def join : Expr → Expr → Expr
  | .empty, b => b
  | a, b => .seq a b

/-- The expressions left after a character; `start` says whether it is the first of the text. -/
def derive (start : Bool) (c : Char) : Expr → List Expr
  | .chars set => if set.contains c then [.empty] else []
  | .seq a b =>
    let left := (a.derive start c).map fun a => join a b
    if a.nullable start false then left ++ b.derive start c else left
  | .alt a b => a.derive start c ++ b.derive start c
  | .star a => (a.derive start c).map fun b => join b (.star a)
  | _ => []

/-- Some part of the text from here on matches `e`, or the text goes on with a match of an
expression in `live`. -/
def search (e : Expr) (start : Bool) (live : List Expr) : List Char → Bool
  | [] => (e :: live).any fun a => a.nullable start true
  | c :: text =>
    ((e :: live).any fun a => a.nullable start false) ||
      search e false ((e :: live).flatMap fun a => a.derive start c).eraseDups text

end Expr

/-- Some part of the text matches. -/
def Regex.foundIn (r : Regex) (text : String) : Bool := r.expr.search true [] text.toList

end JsonEdit
