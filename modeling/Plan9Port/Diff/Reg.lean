import Plan9Port.Diff.Sort

/-!
# Matching two files

The match vector of diff: `J[i]` is the line of the second file that the line `i` of the first one
is matched with, or 0. Lines are their hashes, and all arrays are indexed from 1 on. Arrays that the
source overlays on each other are separate here; an entry is always read before it is overwritten.
The `int`s that count lines are unbounded.
-/

namespace Plan9Port.Diff

open Function (update)

/-! ## Equal ends -/

/-- `file[0]` or `file[1]`. -/
def file (hashes : List Int) (i : Nat) : Int := hashes.getD (i - 1) 0

/-- The first loop of `prune`. -/
def pref (f g : Nat → Int) (len len' : Nat) : Nat → Nat → Nat
  | 0, n => n
  | fuel + 1, n =>
    if n < len ∧ n < len' ∧ f (n + 1) = g (n + 1) then pref f g len len' fuel (n + 1) else n

/-- The second one. -/
def suff (f g : Nat → Int) (len len' pref : Nat) : Nat → Nat → Nat
  | 0, n => n
  | fuel + 1, n =>
    if n < len - pref ∧ n < len' - pref ∧ f (len - n) = g (len' - n) then
      suff f g len len' pref fuel (n + 1)
    else n

/-- `prune`: the lengths of the prefix and of the suffix. -/
def prune (f g : Nat → Int) (len len' : Nat) : Nat × Nat :=
  let p := pref f g len len' len 0
  (p, suff f g len len' p len 0)

/-- `sfile[0]` or `sfile[1]`, with the serial numbers that `prune` has set. -/
def sfile (f : Nat → Int) (pref i : Nat) : Line := ⟨i, f (pref + i)⟩

/-! ## Classes -/

/-- The first two loops of `equiv`. -/
def equiv (n m : Nat) (b : Nat → Line) : Nat → Nat → Nat → (Nat → Line) → Nat → Line
  | 0, _, _, a => a
  | fuel + 1, i, j, a =>
    if i ≤ n then
      if j ≤ m then
        if (a i).value < (b j).value then
          equiv n m b fuel (i + 1) j (update a i { a i with value := 0 })
        else if (a i).value = (b j).value then
          equiv n m b fuel (i + 1) j (update a i { a i with value := j })
        else equiv n m b fuel i (j + 1) a
      else equiv n m b fuel (i + 1) j (update a i { a i with value := 0 })
    else a

/-- The lines that are equal to the one before; they are in the class that begins at `j`. -/
def same (b : Nat → Line) : Nat → Nat → (Nat → Int) → Nat × (Nat → Int)
  | 0, j, c => (j, c)
  | fuel + 1, j, c =>
    if (b (j + 1)).value = (b j).value then
      same b fuel (j + 1) (update c (j + 1) (b (j + 1)).serial)
    else (j, c)

/-- The last loop of `equiv`; the first one of each class is flagged by its sign. -/
def member (m : Nat) (b : Nat → Line) : Nat → Nat → (Nat → Int) → Nat → Int
  | 0, _, c => c
  | fuel + 1, j, c =>
    if j ≤ m then
      let (j, c) := same b m j (update c j (-(b j).serial))
      member m b fuel (j + 1) c
    else update c j (-1)

/-- Lines get their classes. -/
def unsort (f : Nat → Line) : Nat → Nat → (Nat → Int) → Nat → Int
  | 0, _, a => a
  | count + 1, i, a => unsort f count (i + 1) (update a (f i).serial (f i).value)

/-! ## Candidates -/

/-- A candidate. -/
structure Cand where
  x : Nat
  y : Int
  pred : Nat
  deriving DecidableEq, Repr

/-- `clist[p]`. -/
def cand (clist : List Cand) (p : Nat) : Cand := clist.getD p ⟨0, 0, 0⟩

/-- The loop of `search`, where `ys l` is the `y` of the candidate `l`. -/
def bisect (ys : Nat → Int) (y : Int) : Nat → Nat → Nat → Nat
  | 0, i, _ => i + 1
  | fuel + 1, i, j =>
    let l := (i + j) / 2
    if i < l then
      if y < ys l then bisect ys y fuel i l
      else if ys l < y then bisect ys y fuel l j
      else l
    else l + 1

/-- How many candidates are before `y`. -/
def search (clist : List Cand) (c : Nat → Nat) (k : Nat) (y : Int) : Nat :=
  if (cand clist (c k)).y < y then k + 1
  else bisect (fun l => (cand clist (c l)).y) y (k + 1) 0 (k + 1)

/-- The candidates, and the last one of each length. -/
structure Klist where
  clist : List Cand
  c : Nat → Nat
  k : Nat

/-- `c[l] = newcand(x, y, pred)` -/
def Klist.newcand (s : Klist) (l x : Nat) (y : Int) (pred : Nat) : Klist :=
  { s with clist := s.clist ++ [⟨x, y, pred⟩], c := update s.c l s.clist.length }

/-- The inner loop of `stone`, for the member `y = b[j]` of the class of the line `i`. -/
def stoneLine (b : Nat → Int) (i : Nat) : Nat → Nat → Int → Nat → Nat → Klist → Klist
  | 0, _, _, _, _, s => s
  | fuel + 1, j, y, oldl, oldc, s =>
    let next oldl oldc s :=
      if 0 < b (j + 1) then stoneLine b i fuel (j + 1) (b (j + 1)) oldl oldc s else s
    if y ≤ (cand s.clist oldc).y then next oldl oldc s
    else
      let l := search s.clist s.c s.k y
      let oldc := if l ≠ oldl + 1 then s.c (l - 1) else oldc
      if l ≤ s.k then
        if (cand s.clist (s.c l)).y ≤ y then next oldl oldc s
        else next l (s.c l) (s.newcand l i y oldc)
      else { s.newcand l i y oldc with k := s.k + 1 }

/-- The outer loop of `stone`, from the line `i` on; `a` has the classes. -/
def stone (a : Nat → Int) (m : Nat) (b : Nat → Int) : Nat → Nat → Klist → Klist
  | 0, _, s => s
  | count + 1, i, s =>
    let j := (a i).toNat
    stone a m b count (i + 1) <|
      if a i = 0 then s else stoneLine b i (m + 1) j (-b j) 0 (s.c 0) s

/-- `c[0] = newcand(0, 0, 0)` -/
def Klist.init : Klist := ⟨[⟨0, 0, 0⟩], fun _ => 0, 0⟩

/-! ## The match vector -/

/-- The first loop of `unravel`. -/
def ends (len len' pref suff i : Nat) : Int :=
  if i ≤ pref then i else if len - suff < i then i + len' - len else 0

/-- The second loop of `unravel`. -/
def unravel (clist : List Cand) (pref : Nat) : Nat → Nat → (Nat → Int) → Nat → Int
  | 0, _, J => J
  | fuel + 1, p, J =>
    let q := cand clist p
    if q.y ≠ 0 then unravel clist pref fuel q.pred (update J (q.x + pref) (q.y + pref)) else J

/-- The match vector that `diffreg` computes from the hashes of the lines. -/
def matched (hashes hashes' : List Int) : Nat → Int :=
  let f := file hashes
  let g := file hashes'
  let len := hashes.length
  let len' := hashes'.length
  let (pref, suff) := prune f g len len'
  let n := len - pref - suff
  let m := len' - pref - suff
  let b := sort (sfile g pref) m
  let a := equiv n m b (n + m) 1 1 (sort (sfile f pref) n)
  let c := member m (update b (m + 1) { b (m + 1) with value := 0 }) (m + 1) 1 fun _ => 0
  let s := stone (unsort a n 1 fun _ => 0) m c n 1 Klist.init
  unravel s.clist pref s.clist.length (s.c s.k) (ends len len' pref suff)

end Plan9Port.Diff
