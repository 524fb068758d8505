import Plan9Port.Avl.Shape

/-!
# Neighbours and lookup

`findsuccessor` and `findpredecessor` follow child pointers down or parent pointers up. In a tree
they give the next and the previous node of the in-order sequence; the one is the other in the
mirror image of the tree.

## Main results

* `findsuccessor_spec`, `findpredecessor_spec`
* `searchavl_spec`: a search finds the node, and its assertion holds at every step
-/

namespace Plan9Port.Avl

open AvlTree
open List hiding after

variable {ν : Type} [DecidableEq ν]

/-! ## Downwards and upwards -/

variable {xs : List ν} {x : ν} {st : State ν} {a : ν} {fuel : Nat} {p : Option ν} {t : AvlTree ν}

theorem outermost_spec (h : Rep st.cell p t) (ha : ptr t = some a) (hx : t.inorder = x :: xs)
    (hfuel : t.inorder.length < fuel) : outermost st false fuel a = some x := by
  induction t generalizing p a x xs fuel with
  | nil => cases ha
  | node l b c r ihl _ =>
    obtain _ | fuel := fuel
    · omega
    cases ha
    obtain ⟨-, hl, -, -, hrl, -⟩ := h
    rcases l with _ | ⟨ll, la, lb, lr⟩
    · rw [inorder_node, inorder_nil, nil_append] at hx
      cases hx
      simp only [outermost, hl, ptr]
    have hne : (node ll la lb lr).inorder ≠ [] := by simp
    obtain ⟨y, ys, hy⟩ := exists_cons_of_ne_nil hne
    have hyx : y = x := by
      rw [inorder_node _ b, hy, cons_append] at hx
      exact (cons.inj hx).1
    subst hyx
    simp only [outermost, hl, ptr]
    refine ihl hrl rfl hy ?_
    rw [inorder_node _ b, length_append] at hfuel
    simp only [length_cons] at hfuel ⊢
    omega

/-- Climbing from the last node of a subtree gets to the subtree's root. -/
theorem climb_last (h : Rep st.cell p t) (ha : ptr t = some a) (hx : t.inorder = xs ++ [x]) :
    (st.cell x).n true = none ∧
      ∃ k, k ≤ t.inorder.length ∧ ∀ fuel, climb st true (fuel + k) x = climb st true fuel a := by
  induction t generalizing p a x xs with
  | nil => cases ha
  | node l b c r _ ihr =>
    cases ha
    obtain ⟨-, -, hr, -, -, hrr⟩ := h
    rcases r with _ | ⟨rl, ra, rb, rr⟩
    · rw [inorder_node, inorder_nil] at hx
      obtain ⟨-, hb⟩ := append_inj' hx rfl
      obtain rfl : b = x := by simpa using hb
      exact ⟨hr, 0, Nat.zero_le _, fun fuel => rfl⟩
    · have hne : (node rl ra rb rr).inorder ≠ [] := by simp
      obtain ⟨ys, y, hy⟩ : ∃ ys y, (node rl ra rb rr).inorder = ys ++ [y] :=
        ⟨_, _, (dropLast_append_getLast hne).symm⟩
      have hyx : y = x := by
        rw [inorder_node l b, hy, ← cons_append, ← append_assoc] at hx
        simpa using (append_inj' hx rfl).2
      subst hyx
      obtain ⟨hnone, k, hk, hclimb⟩ := ihr hrr rfl hy
      refine ⟨hnone, k + 1, ?_, fun fuel => ?_⟩
      · rw [inorder_node l b, length_append, length_cons]
        omega
      · rw [← add_assoc, add_right_comm, hclimb (fuel + 1)]
        have hp : (st.cell ra).p = some b := hrr.1
        simp only [climb, hp, hr, ptr, if_true]

variable {ys : List ν}

/-- A node that is not the last of its subtree has its successor there. -/
theorem neighbour_inside (h : Rep st.cell p t) (hnodup : t.inorder.Nodup) {y : ν}
    (hx : t.inorder = xs ++ x :: y :: ys) (hfuel : t.inorder.length < fuel) :
    neighbour st fuel true (some x) = some (some y) := by
  induction t generalizing p x y xs ys fuel with
  | nil => simp at hx
  | node l b c r ihl ihr =>
    obtain ⟨hbl, hbr, hlr⟩ := nodup_level hnodup
    obtain ⟨-, hl, hr, -, hrl, hrr⟩ := h
    rw [inorder_node] at hnodup hx hfuel
    have hnl : l.inorder.Nodup := (nodup_append.mp hnodup).1
    have hnr : r.inorder.Nodup := (nodup_cons.mp (nodup_append.mp hnodup).2.1).2
    rw [length_append, length_cons] at hfuel
    rcases append_eq_append_iff.mp hx with ⟨zs, rfl, hz⟩ | ⟨zs, hlz, hz⟩
    · rcases zs with _ | ⟨z, zs⟩
      · -- the node at the top
        obtain ⟨rfl, hry⟩ := cons.inj (hz : b :: r.inorder = x :: y :: ys)
        rcases r with _ | ⟨rl, ra, rb, rr⟩
        · cases hry
        · have hout := outermost_spec hrr rfl hry (by omega : _ < fuel)
          simp only [neighbour, hr, ptr, Bool.not_true, hout]
          rfl
      · obtain ⟨-, hrz⟩ := cons.inj hz
        exact ihr hrr hnr hrz (by omega)
    · rcases zs with _ | ⟨z, zs⟩
      · obtain ⟨rfl, hry⟩ := cons.inj (hz : x :: y :: ys = b :: r.inorder)
        rcases r with _ | ⟨rl, ra, rb, rr⟩
        · cases hry
        · have hout := outermost_spec hrr rfl hry.symm (by omega : _ < fuel)
          simp only [neighbour, hr, ptr, Bool.not_true, hout]
          rfl
      · obtain ⟨rfl, hz'⟩ := cons.inj hz
        rcases zs with _ | ⟨z', zs⟩
        · -- the last node of the left subtree
          obtain ⟨rfl, -⟩ := cons.inj (hz' : y :: ys = b :: r.inorder)
          rcases l with _ | ⟨ll, la, lb, lr⟩
          · simp at hlz
          obtain ⟨hnone, k, hk, hclimb⟩ := climb_last hrl rfl hlz
          obtain ⟨fuel', hfuel'⟩ : ∃ fuel', fuel = fuel' + 1 + k := ⟨fuel - k - 1, by omega⟩
          have hp : (st.cell la).p = some y := hrl.1
          have hne : (st.cell y).n true ≠ some la := by
            rw [hr]
            intro hla
            rcases r with _ | ⟨rl, ra, rb, rr⟩
            · cases hla
            · obtain rfl := Option.some.inj hla
              exact hlr ra (by simp) (by simp)
          simp only [neighbour, hnone, hfuel', hclimb, climb, hp, if_neg hne]
        · obtain ⟨rfl, -⟩ := cons.inj hz'
          exact ihl hrl hnl hlz (by omega)

/-- The last node of a tree has no successor. -/
theorem neighbour_last (h : Rep st.cell none t) (hx : t.inorder = xs ++ [x])
    (hfuel : t.inorder.length < fuel) : neighbour st fuel true (some x) = some none := by
  rcases t with _ | ⟨l, a, b, r⟩
  · simp at hx
  obtain ⟨hnone, k, hk, hclimb⟩ := climb_last h rfl hx
  obtain ⟨fuel', rfl⟩ : ∃ fuel', fuel = fuel' + 1 + k := ⟨fuel - k - 1, by omega⟩
  have hp : (st.cell a).p = none := h.1
  simp only [neighbour, hnone, hclimb, climb, hp]

/-- The node after `x` in a list. -/
def next? (xs : List ν) (x : ν) : Option ν := (xs.dropWhile (· ≠ x))[1]?

theorem next?_append (h : x ∉ xs) : next? (xs ++ x :: ys) x = ys.head? := by
  have hpos : ∀ z ∈ xs, decide (z ≠ x) = true := fun z hz => by
    simpa using fun hzx : z = x => h (hzx ▸ hz)
  rw [next?, dropWhile_append_of_pos hpos]
  cases ys <;> simp

theorem findsuccessor_spec (h : Holds st .root none t) (hx : x ∈ t.inorder)
    (hfuel : t.inorder.length < fuel) :
    findsuccessor st fuel (some x) = some (next? t.inorder x) := by
  obtain ⟨xs, ys, hxs⟩ := append_of_mem hx
  have hnotMem : x ∉ xs := fun hmem => by
    have := h.nodup
    rw [hxs, nodup_append] at this
    exact this.2.2 x hmem x (.head _) rfl
  rw [findsuccessor, hxs, next?_append hnotMem]
  rcases ys with _ | ⟨y, ys⟩
  · exact neighbour_last h.rep hxs hfuel
  · exact neighbour_inside h.rep h.nodup hxs hfuel

/-! ## The mirror image -/

/-- Left and right are exchanged. -/
def mirror : AvlTree ν → AvlTree ν
  | .nil => .nil
  | .node l a b r => .node (mirror r) a (-b) (mirror l)

omit [DecidableEq ν] in
theorem inorder_mirror (t : AvlTree ν) : (mirror t).inorder = t.inorder.reverse := by
  induction t with
  | nil => rfl
  | node l a b r ihl ihr => simp [mirror, ihl, ihr]

omit [DecidableEq ν] in
theorem ptr_mirror (t : AvlTree ν) : ptr (mirror t) = ptr t := by
  cases t <;> rfl

/-- The two children of every node exchanged. -/
def State.mirror (st : State ν) : State ν :=
  { st with cell := fun a => { st.cell a with n := fun i => (st.cell a).n (!i),
                                              bal := -(st.cell a).bal } }

omit [DecidableEq ν] in
theorem Rep.mirror (h : Rep st.cell p t) : Rep st.mirror.cell p (mirror t) := by
  induction t generalizing p with
  | nil => trivial
  | node l a b r ihl ihr =>
    obtain ⟨hp, hl, hr, hb, hrl, hrr⟩ := h
    refine ⟨hp, ?_, ?_, ?_, ihr hrr, ihl hrl⟩
    · rw [ptr_mirror]
      exact hr
    · rw [ptr_mirror]
      exact hl
    · rw [← hb]
      rfl

omit [DecidableEq ν] in
theorem Holds.mirror (h : Holds st .root none t) : Holds st.mirror .root none (mirror t) := by
  refine ⟨?_, h.rep.mirror, ?_, trivial⟩
  · rw [ptr_mirror]
    exact h.load
  · rw [inorder_mirror, nodup_reverse]
    exact h.nodup

omit [DecidableEq ν] in
theorem outermost_mirror (st : State ν) (i : Bool) (fuel : Nat) (a : ν) :
    outermost st.mirror i fuel a = outermost st (!i) fuel a := by
  have hn : ∀ b i, (st.mirror.cell b).n i = (st.cell b).n (!i) := fun _ _ => rfl
  induction fuel generalizing a with
  | zero => rfl
  | succ fuel ih => simp only [outermost, hn, ih]

theorem neighbour_mirror (st : State ν) (fuel : Nat) (i : Bool) (a : Option ν) :
    neighbour st.mirror fuel i a = neighbour st fuel (!i) a := by
  have hn : ∀ b i, (st.mirror.cell b).n i = (st.cell b).n (!i) := fun _ _ => rfl
  have hp : ∀ b, (st.mirror.cell b).p = (st.cell b).p := fun _ => rfl
  have hclimb : ∀ fuel i b, climb st.mirror i fuel b = climb st (!i) fuel b := by
    intro fuel i
    induction fuel with
    | zero => exact fun _ => rfl
    | succ fuel ih =>
      intro b
      simp only [climb, hn, hp, ih]
  cases a with
  | none => rfl
  | some a => simp only [neighbour, hn, outermost_mirror, hclimb]

/-- The node before `x` in a list. -/
def prev? (xs : List ν) (x : ν) : Option ν := next? xs.reverse x

theorem prev?_append (h : x ∉ ys) : prev? (xs ++ x :: ys) x = xs.getLast? := by
  rw [prev?, reverse_append, reverse_cons, append_assoc, singleton_append,
    next?_append (by simpa using h), head?_reverse]

theorem findpredecessor_spec (h : Holds st .root none t) (hx : x ∈ t.inorder)
    (hfuel : t.inorder.length < fuel) :
    findpredecessor st fuel (some x) = some (prev? t.inorder x) := by
  have hmirror := findsuccessor_spec h.mirror (x := x) (by rw [inorder_mirror]; simpa using hx)
    (by rw [inorder_mirror, length_reverse]; exact hfuel)
  rw [findsuccessor, neighbour_mirror, inorder_mirror] at hmirror
  exact hmirror

/-! ## Lookup -/

/-- What a search is to find: the node, or else a neighbour on the side that is asked for. -/
def found (dir : ν → Int) (neighbor : Int) (xs : List ν) : Option ν :=
  match AvlTree.at? dir xs with
  | some a => some a
  | none =>
    if neighbor = 0 then none
    else if neighbor < 0 then (AvlTree.before dir xs).getLast?
    else (AvlTree.after dir xs).head?

theorem side_neg : side (-1) = false := by decide

theorem side_pos : side 1 = true := by decide

/-- A search in a subtree, which is the only place left to look. -/
theorem lookupLoop_spec (cmp : ν → ν → Int) {T : AvlTree ν} (hT : Holds st .root none T)
    (hdir : Directed (dir cmp x) T.inorder) (neighbor : Int) {loops : Nat}
    (hloops : T.inorder.length < loops) (h : Rep st.cell p t) (ha : ptr t = some a) {A B : List ν}
    (hAB : T.inorder = A ++ (t.inorder ++ B)) (hA : ∀ y ∈ A, 0 < dir cmp x y)
    (hB : ∀ y ∈ B, dir cmp x y < 0) (hfuel : t.inorder.length < fuel) :
    lookupLoop cmp st x neighbor loops fuel a p = some (found (dir cmp x) neighbor T.inorder) := by
  induction t generalizing p a A B fuel with
  | nil => cases ha
  | node l b c r ihl ihr =>
    obtain _ | fuel := fuel
    · omega
    cases ha
    obtain ⟨hp, hl, hr, -, hrl, hrr⟩ := h
    have hsplit : T.inorder = (A ++ l.inorder) ++ b :: (r.inorder ++ B) := by
      rw [hAB]
      simp
    rw [inorder_node, length_append, length_cons] at hfuel
    have hb : b ∈ T.inorder := by
      rw [hsplit]
      simp
    have hdir' := hdir
    rw [hsplit] at hdir'
    have hnodup := hT.nodup
    rw [hsplit, nodup_append, nodup_cons] at hnodup
    simp only [lookupLoop, hp, ne_eq, not_true_eq_false, if_false]
    change (if dir cmp x b = 0 then _ else _) = _
    rcases canoncmp_cases (cmp x b) with hneg | hzero | hpos
    · change dir cmp x b = -1 at hneg
      obtain ⟨hbefore, hafter, hat⟩ := cut_left hdir' (by omega : dir cmp x b < 0)
      have hright := hdir'.neg_of_nonpos (by omega : dir cmp x b ≤ 0)
      rw [if_neg (by omega)]
      change canoncmp (cmp x b) = -1 at hneg
      simp only [hneg, side_neg, hl]
      rcases l with _ | ⟨ll, la, lb, lr⟩
      · -- `b` is the first node to the right of the place
        simp only [ptr]
        have hAnil : at? (dir cmp x) A = none := at?_eq_none fun y hy => (hA y hy).ne'
        rw [inorder_nil, append_nil] at hbefore hafter hat hsplit
        rw [before_eq_self hA] at hbefore
        rw [after_eq_nil hA, nil_append] at hafter
        rw [found, hsplit, hat, hAnil, hbefore, hafter]
        have hprev : findpredecessor st loops (some b) = some A.getLast? := by
          rw [findpredecessor_spec hT hb hloops, hsplit, prev?_append hnodup.2.1.1]
        rw [hprev]
        split_ifs <;> first | omega | rfl
      · refine ihl hrl rfl (B := b :: (r.inorder ++ B)) (by rw [hsplit]; simp) hA ?_ (by omega)
        intro y hy
        rcases mem_cons.mp hy with rfl | hy
        · change dir cmp x y = -1 at hneg
          omega
        · exact hright y hy
    · change dir cmp x b = 0 at hzero
      obtain ⟨-, -, hat⟩ := cut_here hdir' hzero
      rw [if_pos hzero, found, hsplit, hat]
    · change dir cmp x b = 1 at hpos
      obtain ⟨hbefore, hafter, hat⟩ := cut_right hdir' (by omega : 0 < dir cmp x b)
      have hleft := hdir'.pos_of_nonneg (by omega : 0 ≤ dir cmp x b)
      rw [if_neg (by omega)]
      change canoncmp (cmp x b) = 1 at hpos
      simp only [hpos, side_pos, hr]
      rcases r with _ | ⟨rl, ra, rb, rr⟩
      · simp only [ptr]
        have hBnil : at? (dir cmp x) B = none := at?_eq_none fun y hy => (hB y hy).ne
        rw [inorder_nil, nil_append] at hbefore hafter hat hsplit
        rw [before_eq_nil hB] at hbefore
        rw [after_eq_self hB] at hafter
        rw [found, hsplit, hat, hBnil, hbefore, hafter]
        have hnext : findsuccessor st loops (some b) = some B.head? := by
          rw [findsuccessor_spec hT hb hloops, hsplit, next?_append fun hmem =>
            hnodup.2.2 b hmem b (.head _) rfl]
        rw [hnext]
        split_ifs <;> first | omega | simp
      · refine ihr hrr rfl (A := A ++ l.inorder ++ [b]) (by rw [hsplit]; simp) ?_ hB (by omega)
        intro y hy
        rcases mem_append.mp hy with hy | hy
        · exact hleft y hy
        · obtain rfl := mem_singleton.mp hy
          change dir cmp x y = 1 at hpos
          omega

theorem searchavl_spec (cmp : ν → ν → Int) (h : Holds st .root none t)
    (hdir : Directed (dir cmp x) t.inorder) (neighbor : Int) (hfuel : t.inorder.length < fuel) :
    searchavl cmp fuel x neighbor st = some (found (dir cmp x) neighbor t.inorder) := by
  have hroot : st.root = ptr t := h.load
  rcases t with _ | ⟨l, a, b, r⟩
  · simp [searchavl, hroot, ptr, found, at?, before, after]
  · simp only [searchavl, hroot, ptr]
    exact lookupLoop_spec cmp h hdir neighbor hfuel h.rep rfl (A := []) (B := []) (by simp)
      (by simp) (by simp) hfuel

end Plan9Port.Avl
