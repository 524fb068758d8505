import Plan9Port.Lib.AvlTree
import Plan9Port.Lib.Except

/-!
# The AVL trees of libavl

`libavl/avl.c`, function by function. Nodes are linked into the tree by the pointers they hold, to
their parent and to their two children; a node is known by its address, and comparing two nodes is
up to the caller. The functions that change the tree take the address of the pointer to a subtree,
which is the root or a child of some node.

A nil pointer that is followed and an `assert(0)` that is reached stop the program; a recursion or
a loop goes on for as long as there is fuel.
-/

namespace Plan9Port.Avl

variable {ν : Type} [DecidableEq ν]

/-- A node. -/
structure Avl (ν : Type) where
  p : Option ν
  n : Bool → Option ν
  bal : Int

/-- A walk, with the address of its record. -/
structure Avlwalk (ν : Type) where
  addr : Nat
  started : Bool
  moved : Bool
  node : Option ν
deriving DecidableEq

/-- The memory: the tree's root, the nodes and the walks that are open. -/
structure State (ν : Type) where
  root : Option ν
  cell : ν → Avl ν
  walks : List (Avlwalk ν)

/-- An `Avl**`: the address of the root, or of `a->n[i]`. -/
inductive Slot (ν : Type) where
  | root
  | child (a : ν) (i : Bool)

namespace State

/-- Changes the node `a`. -/
def modify (st : State ν) (a : ν) (f : Avl ν → Avl ν) : State ν :=
  { st with cell := Function.update st.cell a (f (st.cell a)) }

/-- `a->n[i] = v` -/
def setN (st : State ν) (a : ν) (i : Bool) (v : Option ν) : State ν :=
  st.modify a fun x => { x with n := Function.update x.n i v }

/-- `a->p = p` -/
def setP (st : State ν) (a : ν) (p : Option ν) : State ν :=
  st.modify a fun x => { x with p := p }

/-- `a->bal = bal` -/
def setBal (st : State ν) (a : ν) (bal : Int) : State ν :=
  st.modify a fun x => { x with bal := bal }

/-- `if(a) a->p = p`. -/
def setP? (st : State ν) (a : Option ν) (p : Option ν) : State ν :=
  match a with
  | none => st
  | some a => st.setP a p

/-- `*tp`. -/
def load (st : State ν) : Slot ν → Option ν
  | .root => st.root
  | .child a i => (st.cell a).n i

/-- `*tp = v`. -/
def store (st : State ν) (tp : Slot ν) (v : Option ν) : State ν :=
  match tp with
  | .root => { st with root := v }
  | .child a i => st.setN a i v

end State

/-! ## Rotations -/

/-- A rotation to the left. -/
def singleleft (tp : Slot ν) (p : Option ν) (st : State ν) : Option (State ν) := do
  let a ← st.load tp
  let c ← (st.cell a).n true
  let r2 := (st.cell c).bal
  let l := max r2 0 + 1 - (st.cell a).bal
  let x := (st.cell c).n false
  let st := (st.setN a true x).setP? x (some a)
  let st := (st.setN c false (some a)).setP a (some c)
  let st := (st.store tp (some c)).setP c p
  return (st.setBal a (-l)).setBal c (r2 - (max l 0 + 1))

/-- A rotation to the right. -/
def singleright (tp : Slot ν) (p : Option ν) (st : State ν) : Option (State ν) := do
  let a ← st.load tp
  let c ← (st.cell a).n false
  let l2 := -(st.cell c).bal
  let r := (st.cell a).bal + (max l2 0 + 1)
  let x := (st.cell c).n true
  let st := (st.setN a false x).setP? x (some a)
  let st := (st.setN c true (some a)).setP a (some c)
  let st := (st.store tp (some c)).setP c p
  return (st.setBal a r).setBal c (max r 0 + 1 - l2)

/-- The child is rotated to the right first. -/
def doublerightleft (tp : Slot ν) (p : Option ν) (st : State ν) : Option (State ν) := do
  let a ← st.load tp
  let st ← singleright (.child a true) (some a) st
  singleleft tp p st

/-- The child is rotated to the left first. -/
def doubleleftright (tp : Slot ν) (p : Option ν) (st : State ν) : Option (State ν) := do
  let a ← st.load tp
  let st ← singleleft (.child a false) (some a) st
  singleright tp p st

/-- A node that is out of balance is rotated. -/
def balance (tp : Slot ν) (p : Option ν) (st : State ν) : Option (State ν) := do
  let a ← st.load tp
  if (st.cell a).bal = -2 then
    let c ← (st.cell a).n false
    if (st.cell c).bal ≤ 0 then singleright tp p st
    else if (st.cell c).bal = 1 then doubleleftright tp p st
    else none
  else if (st.cell a).bal = 2 then
    let c ← (st.cell a).n true
    if (st.cell c).bal ≥ 0 then singleleft tp p st
    else if (st.cell c).bal = -1 then doublerightleft tp p st
    else none
  else return st

/-! ## Insertion -/

/-- The sign of a comparison. -/
def canoncmp (cmp : Int) : Int :=
  if cmp < 0 then -1 else if cmp > 0 then 1 else 0

/-- `(i+1)/2` as an index. -/
def side (i : Int) : Bool := (i + 1) / 2 = 1

/-- `_insertavl`: what it returns, and the node it has put into `*rfree`. -/
def insertAt (cmp : ν → ν → Int) :
    Nat → Slot ν → Option ν → ν → State ν → Option (State ν × Int × Option ν)
  | 0, _, _, _, _ => none
  | fuel + 1, tp, p, r, st =>
    match st.load tp with
    | none =>
      some ((st.modify r fun _ => ⟨p, fun _ => none, 0⟩).store tp (some r), 1, none)
    | some a => do
      let ob := (st.cell a).bal
      let i := canoncmp (cmp r a)
      if i ≠ 0 then
        let (st, d, rfree) ← insertAt cmp fuel (.child a (side i)) (some a) r st
        let st := st.setBal a (ob + i * d)
        let st ← balance tp p st
        let t ← st.load tp
        return (st, if ob = 0 ∧ (st.cell t).bal ≠ 0 then 1 else 0, rfree)
      else
        let st := st.store tp (some r)
        let st := st.modify r fun _ => st.cell a
        let st := st.setP? ((st.cell r).n false) (some r)
        let st := st.setP? ((st.cell r).n true) (some r)
        return (st, 0, some a)

/-- A node is inserted; an old one with its key is returned. -/
def insertavl (cmp : ν → ν → Int) (fuel : Nat) (new : ν) (st : State ν) :
    Option (State ν × Option ν) := do
  let (st, _, oldp) ← insertAt cmp fuel .root none new st
  return (st, oldp)

/-! ## Neighbours -/

/-- `for(; a->n[i]; a = a->n[i])`. -/
def outermost (st : State ν) (i : Bool) : Nat → ν → Option ν
  | 0, _ => none
  | fuel + 1, a =>
    match (st.cell a).n i with
    | none => some a
    | some b => outermost st i fuel b

/-- `while(a->p && a->p->n[i] == a) a = a->p`, and then `a->p`. -/
def climb (st : State ν) (i : Bool) : Nat → ν → Option (Option ν)
  | 0, _ => none
  | fuel + 1, a =>
    match (st.cell a).p with
    | none => some none
    | some b => if (st.cell b).n i = some a then climb st i fuel b else some (some b)

/-- `findpredecessor`, for `i` the left side, and `findsuccessor`, for `i` the right one. -/
def neighbour (st : State ν) (fuel : Nat) (i : Bool) : Option ν → Option (Option ν)
  | none => some none
  | some a =>
    match (st.cell a).n i with
    | some b => do
      let x ← outermost st (!i) fuel b
      return some x
    | none => climb st i fuel a

/-- The node before `a`. -/
def findpredecessor (st : State ν) (fuel : Nat) (a : Option ν) : Option (Option ν) :=
  neighbour st fuel false a

/-- The node after `a`. -/
def findsuccessor (st : State ν) (fuel : Nat) (a : Option ν) : Option (Option ν) :=
  neighbour st fuel true a

/-! ## Deletion -/

/-- The hook of `deleteavl`: the walks that stand on `a` go back to its predecessor. -/
def walkdel (fuel : Nat) (a : ν) (st : State ν) : Option (State ν) := do
  let p ← findpredecessor st fuel (some a)
  return { st with walks := st.walks.map fun w =>
    if w.node = some a then { w with moved := true, node := p, started := w.started && p.isSome }
    else w }

/-- Unlinks the first node of a subtree. Also returned: the node and the change of height. -/
def successor : Nat → Slot ν → Option ν → State ν → Option (State ν × ν × Int)
  | 0, _, _, _ => none
  | fuel + 1, tp, p, st => do
    let a ← st.load tp
    if (st.cell a).n false = none then
      let v := (st.cell a).n true
      return ((st.store tp v).setP? v p, a, -1)
    else
      let ob := (st.cell a).bal
      let (st, r, d) ← successor fuel (.child a false) (some a) st
      let st := st.setBal a (ob - d)
      let st ← balance tp p st
      let t ← st.load tp
      return (st, r, if ob ≠ 0 ∧ (st.cell t).bal = 0 then -1 else 0)

/-- `_deleteavl`, with `walkdel` for its hook, whose loops have fuel of their own: what it returns,
and the node in `*del`. -/
def deleteAt (cmp : ν → ν → Int) (loops : Nat) :
    Nat → Slot ν → Option ν → ν → State ν → Option (State ν × Int × Option ν)
  | 0, _, _, _, _ => none
  | fuel + 1, tp, p, rx, st =>
    match st.load tp with
    | none => some (st, 0, none)
    | some a => do
      let ob := (st.cell a).bal
      let i := canoncmp (cmp rx a)
      if i ≠ 0 then
        let (st, d, del) ← deleteAt cmp loops fuel (.child a (side i)) (some a) rx st
        let st := st.setBal a (ob + i * d)
        let st ← balance tp p st
        let t ← st.load tp
        return (st, if ob ≠ 0 ∧ (st.cell t).bal = 0 then -1 else 0, del)
      else
        let st ← walkdel loops a st
        if (st.cell a).n false = none then
          let v := (st.cell a).n true
          return ((st.store tp v).setP? v p, -1, some a)
        else if (st.cell a).n true = none then
          let v := (st.cell a).n false
          return ((st.store tp v).setP? v p, -1, some a)
        else
          let (st, r, d) ← successor fuel (.child a true) (some a) st
          let st := st.setBal a (ob + d)
          let st := st.setBal r (st.cell a).bal
          let st := st.setN r false ((st.cell a).n false)
          let st := st.setN r true ((st.cell a).n true)
          let st := (st.store tp (some r)).setP r p
          let st := st.setP? ((st.cell r).n false) (some r)
          let st := st.setP? ((st.cell r).n true) (some r)
          let st ← balance tp p st
          let t ← st.load tp
          return (st, if ob ≠ 0 ∧ (st.cell t).bal = 0 then -1 else 0, some a)

/-- The node with the key is deleted, and returned. -/
def deleteavl (cmp : ν → ν → Int) (fuel : Nat) (key : ν) (st : State ν) :
    Option (State ν × Option ν) := do
  let (st, _, oldp) ← deleteAt cmp fuel fuel .root none key st
  return (st, oldp)

/-! ## Lookup -/

/-- `_lookupavl`, which asserts at each step that the parent pointer is right; the loops of
`findpredecessor` and `findsuccessor` have fuel of their own. -/
def lookupLoop (cmp : ν → ν → Int) (st : State ν) (r : ν) (neighbor : Int) (loops : Nat) :
    Nat → ν → Option ν → Option (Option ν)
  | 0, _, _ => none
  | fuel + 1, t, p =>
    if (st.cell t).p ≠ p then none
    else
      let i := canoncmp (cmp r t)
      if i = 0 then some (some t)
      else
        match (st.cell t).n (side i) with
        | some t' => lookupLoop cmp st r neighbor loops fuel t' (some t)
        | none =>
          if neighbor = 0 then some none
          else if neighbor < 0 then
            if i > 0 then some (some t) else findpredecessor st loops (some t)
          else if i < 0 then some (some t) else findsuccessor st loops (some t)

/-- The node with the key, or a neighbour of the key. -/
def searchavl (cmp : ν → ν → Int) (fuel : Nat) (key : ν) (neighbor : Int) (st : State ν) :
    Option (Option ν) :=
  match st.root with
  | none => some none
  | some t => lookupLoop cmp st key neighbor fuel fuel t none

/-- The node with the key. -/
def lookupavl (cmp : ν → ν → Int) (fuel : Nat) (key : ν) (st : State ν) : Option (Option ν) :=
  searchavl cmp fuel key 0 st

end Plan9Port.Avl
