import JsonEdit.Rule.Basic

/-!
# The stack of open nodes

While a document streams by, the nodes on the way from the root to the present place are kept on a
stack, innermost first. A frame is pushed when its key is known, or its place in an array; it
becomes a container when the container opens. Inside a withheld subtree the stack goes on as
usual and only counts how many of its containers are withheld.

* `Frame`, `Stack`: the data;
* `Stack.pushKey`, `Stack.prepare`: a frame for a member, and for any node;
* `Stack.path`: the path of the innermost frame;
* `Imbalance`: why an event does not fit.
-/

namespace JsonEdit

/-- A node that is open, or the key of one that is due. -/
structure Frame where
  /-- The key the node is written under; the root has none. -/
  key : Option String
  /-- The container the node has turned out to be. -/
  container : Option ContainerKind
  /-- How many children have been written. -/
  childCount : Nat
  /-- The position of the next element. -/
  nextIndex : Nat
deriving DecidableEq, Repr

/-- A node with this key that is due. -/
def Frame.pending (key : Option String) : Frame := ⟨key, none, 0, 0⟩

/-- Why an event does not fit the containers that are open. -/
inductive Imbalance
  /-- A member name where no object is the innermost frame. -/
  | nameOutsideObject
  /-- A value directly in an object. -/
  | valueWithoutName
  /-- An end without a start. -/
  | nothingOpen
  /-- An end that the innermost frame does not wait for. -/
  | innermost (container : Option ContainerKind)
deriving DecidableEq, Repr

/-- The wording of an imbalance. -/
def Imbalance.message : Imbalance → String
  | .nameOutsideObject => "member name outside of an open object"
  | .valueWithoutName => "value inside an object without a member name"
  | .nothingOpen => "no open container"
  | .innermost none => "innermost open frame is None"
  | .innermost (some .object) => "innermost open frame is Object"
  | .innermost (some .array) => "innermost open frame is Array"

/-- The open nodes, innermost first, and how many withheld containers are open. -/
structure Stack where
  frames : List Frame
  suppression : Nat
deriving DecidableEq, Repr

namespace Stack

/-- Nothing open. -/
def empty : Stack := ⟨[], 0⟩

/-- The number of frames. -/
def depth (s : Stack) : Nat := s.frames.length

/-- No document is open. -/
def isEmpty (s : Stack) : Bool := s.frames.isEmpty

/-- The number of open containers. -/
def openContainers (s : Stack) : Nat := s.frames.countP fun f => f.container.isSome

/-- The innermost frame. -/
def top? (s : Stack) : Option Frame := s.frames.head?

/-- The keys below the root on the way to the innermost frame. -/
def path (s : Stack) : Path := ⟨(s.frames.dropLast.map fun f => f.key.getD "").reverse⟩

/-- Adds a frame. -/
def push (s : Stack) (frame : Frame) : Stack := { s with frames := frame :: s.frames }

/-- Takes the innermost frame off. -/
def pop (s : Stack) : Stack := { s with frames := s.frames.tail }

/-- Changes the innermost frame. -/
def onTop (s : Stack) (f : Frame → Frame) : Stack :=
  match s.frames with
  | [] => s
  | top :: rest => { s with frames := f top :: rest }

/-- A frame for the next member of the innermost object. -/
def pushKey (s : Stack) (key : String) : Except Imbalance Stack :=
  match s.frames with
  | ⟨_, some .object, _, _⟩ :: _ => .ok (s.push (.pending (some key)))
  | _ => .error .nameOutsideObject

/-- A frame for the next node: the root, the next element of the innermost array, or the node that
is due. -/
def prepare (s : Stack) : Except Imbalance Stack :=
  match s.frames with
  | [] => .ok (s.push (.pending none))
  | array@⟨_, some .array, _, index⟩ :: rest =>
    .ok { s with
      frames := .pending (some (toString index)) :: { array with nextIndex := index + 1 } :: rest }
  | ⟨_, some .object, _, _⟩ :: _ => .error .valueWithoutName
  | ⟨_, none, _, _⟩ :: _ => .ok s

/-- The innermost frame turns out to be a container, or not. -/
def openContainer (s : Stack) (container : Option ContainerKind) : Stack :=
  s.onTop fun f => { f with container, childCount := 0 }

/-- Gives the innermost frame another key. -/
def rename (s : Stack) (key : String) : Stack := s.onTop fun f => { f with key := some key }

/-- One more withheld container is open. -/
def enterSuppressed (s : Stack) : Stack := { s with suppression := s.suppression + 1 }

/-- One withheld container less is open. -/
def leaveSuppressed (s : Stack) : Stack := { s with suppression := s.suppression - 1 }

end Stack

end JsonEdit
