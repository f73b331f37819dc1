import JsonEdit.Rule.Basic

/-!
# Handlers

Handlers that come up again and again.

* `Handler.always`, `Handler.fail`: the same answer for every node;
* `Handler.onKind`: another handler, for nodes of one kind only;
* `Handler.upperCase`, `Handler.double`: new values made from old ones.
-/

namespace JsonEdit

namespace Handler

/-- The same action for every node. -/
def always (action : Action) : Handler := fun _ => .ok action

/-- Fails at every node. -/
def fail (message : String) : Handler := fun _ => .error message

/-- Nodes of other kinds pass. -/
def onKind (kind : NodeKind) (handler : Handler) : Handler := fun node =>
  if node.kind = kind then handler node else .ok .pass

/-- ASCII letters of a string in upper case. -/
def upperCase : Handler := fun node =>
  match node.value with
  | some (.str s) => .ok (.replace (.str (String.ofList (s.toList.map Char.toUpper))))
  | _ => .ok .pass

/-- Twice a number that is an integer of 64 bits, if that is one again; fails on everything else. -/
def double : Handler := fun node =>
  match node.value with
  | some (.num n) =>
    match n.toInt? with
    | some i =>
      if Number.inWord i && Number.inWord (2 * i) then .ok (.replace (.num (Number.ofInt (2 * i))))
      else .error "not a number"
    | none => .error "not a number"
  | _ => .error "not a number"

end Handler

end JsonEdit
