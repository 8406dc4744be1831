import Spool.Heap.Basic

/-!
# Pictures of values

A value with all that it reaches, as a numbered graph: nodes are numbered when they are first met, breadth
first, and from one object first its members by name and then its payload in order. Objects that stand for
classes, modules and functions are shown by name and not entered.
-/

namespace Spool

namespace Picture

inductive Link where
  | none
  | scalar (scalar : Scalar)
  | ofClass (name : String)
  | ofModule (name : String)
  | ofFunction (name : String)
  /-- The object has been reclaimed. -/
  | stale
  | node (number : Nat)
  deriving Inhabited

inductive Content where
  | none
  | text (text : String)
  | array (items : List Link)
  | tuple (items : List Link)
  | bound (function : String) (receiver : Link) (captures : Bool)
  | future (cell : FutureCell)
  | task (t : TaskId)
  | context
  | process (p : Option ProcessId)
  | remote (p : ProcessId)
  deriving Inhabited

structure Node where
  className : String
  members : List (String × Link)
  content : Content
  deriving Inhabited

/-- The objects met so far, in the order of their numbers. -/
abbrev Met := Array Handle

def number (r : Handle) : StateM Met Nat := do
  match (← get).findIdx? fun other => other = r with
  | some n => return n
  | none => modifyGet fun met => (met.size, met.push r)

def link (reg : Registry) (h : Heap) : Value → StateM Met Link
  | .none => pure .none
  | .scalar s => pure (.scalar s)
  | .object r =>
    match h.object? r with
    | none => pure .stale
    | some o =>
      match o.payload with
      | .ofClass c => pure (.ofClass (reg.className c))
      | .ofModule m => pure (.ofModule (reg.moduleAt m).name)
      | .ofFunction f => pure (.ofFunction (reg.functionAt f).name)
      | _ => Link.node <$> number r

def content (reg : Registry) (h : Heap) : Payload → StateM Met Content
  | .text s => pure (.text s)
  | .array items => .array <$> items.toList.mapM (link reg h)
  | .tuple items => .tuple <$> items.toList.mapM (link reg h)
  | .bound b => do
    let receiver ← link reg h b.receiver
    return .bound (reg.functionAt b.function).name receiver b.capture.isSome
  | .future cell => pure (.future cell)
  | .task t => pure (.task t)
  | .context _ => pure .context
  | .process p => pure (.process p)
  | .remote r => pure (.remote r.process)
  | _ => pure .none

def node (reg : Registry) (h : Heap) (o : Object) : StateM Met Node := do
  let sorted := o.members.entries.mergeSort fun a b => a.1 ≤ b.1
  let members ← sorted.mapM fun (name, v) => return (name, ← link reg h v)
  return { className := reg.className o.ofClass, members, content := ← content reg h o.payload }

/-- The nodes from a number on, as many as the limit allows. -/
def nodesFrom (reg : Registry) (h : Heap) : (limit : Nat) → (number : Nat) → StateM Met (List Node)
  | 0, _ => pure []
  | limit + 1, number => do
    match (← get)[number]? with
    | none => return []
    | some r =>
      let first ← node reg h ((h.object? r).getD default)
      return first :: (← nodesFrom reg h limit (number + 1))

end Picture

/-- A value and the nodes that it reaches. -/
structure Picture where
  root : Picture.Link
  nodes : List Picture.Node
  /-- More nodes were met than are listed. -/
  more : Bool

def Heap.picture (h : Heap) (reg : Registry) (limit : Nat) (v : Value) : Picture :=
  let act : StateM Picture.Met Picture := do
    let root ← Picture.link reg h v
    let nodes ← Picture.nodesFrom reg h limit 0
    return { root, nodes, more := (← get).size > nodes.length }
  (act.run #[]).1

end Spool
