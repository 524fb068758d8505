import Plan9Port.Venti.Zero

/-!
# The block cache

The cache of `libventi` (`cache.c`) recycles the memory of the blocks that are not in use. A buffer
that is large enough, and less than twice as large as it has to be, is kept with its size; it is
cleared only as far as its user asked for it, but written to Venti as far as it reaches.

Any block of the heap may be the next victim. Scores and the hash table are left out, and lengths
are natural numbers.
-/

namespace Plan9Port.Venti.Cache

open Memory List Option

/-- Where the contents of a block come from. -/
inductive Iostate
  | unset
  | BioLocal
  | BioVenti
  | BioEmpty
  | BioVentiError
  deriving DecidableEq

/-- A block; `heap` says whether it is in the heap. How many bytes its user asked for, `asked`, is
not known to the program. -/
structure VtBlock where
  data : List UInt8 := []
  size : Nat := 0
  type : Int32 := 0
  iostate : Iostate := .unset
  ref : Nat := 0
  heap : Bool := true
  asked : Nat := 0

/-- The blocks, the memory that is left, and the blocks without memory. -/
structure VtCache where
  block : Nat → VtBlock
  mem : Nat
  dead : List Nat := []

/-- The bytes that the user of a block sees. -/
def VtBlock.seen (b : VtBlock) : List UInt8 := b.data.take b.asked

/-- A block is replaced. -/
def VtCache.set (c : VtCache) (i : Nat) (b : VtBlock) : VtCache :=
  { c with block := Function.update c.block i b }

/-- All blocks are in the heap, without memory. -/
def vtcachealloc (nblock mem : Nat) : VtCache := { block := fun i => { heap := i < nblock }, mem }

/-- The end of `vtcacheevict`; `fresh` is what `vtmalloc` returns. -/
def allocate (size : Nat) (fresh : List UInt8) (i : Nat) (c : VtCache) : Option (Nat × VtCache) :=
  let b := c.block i
  if size > b.size ∨ size ≤ b.size / 2 then
    if fresh.length = size then
      some (i, { c.set i { b with size, data := fresh } with mem := c.mem + b.size - size })
    else none
  else some (i, c)

/-- The loop of `vtcacheevict`. The blocks in `victims` are bumped as long as they are needed. -/
def evictLoop (size : Nat) (fresh : List UInt8) : List Nat → VtCache → Option (Nat × VtCache)
  | [], _ => none
  | i :: victims, c =>
    let b := { c.block i with heap := false, ref := 1, iostate := .BioEmpty }
    if (c.block i).heap ∧ (c.block i).ref = 0 then
      if c.mem + b.size ≥ size then allocate size fresh i (c.set i b)
      else evictLoop size fresh victims { c.set i { b with data := [], size := 0 } with
        mem := c.mem + b.size, dead := i :: c.dead }
    else none

/-- A block to use, with memory for it. -/
def vtcacheevict (size : Nat) (fresh : List UInt8) (victims : List Nat) (c : VtCache) :
    Option (Nat × VtCache) :=
  match c.dead with
  | i :: dead =>
    if c.mem ≥ size then allocate size fresh i { c with dead } else evictLoop size fresh victims c
  | [] => evictLoop size fresh victims c

/-- A new block, cleared as far as was asked for. -/
def vtcacheallocblock (type : Int32) (size : Nat) (fresh : List UInt8) (victims : List Nat)
    (c : VtCache) : Option (Nat × VtCache) := do
  let (i, c) ← vtcacheevict size fresh victims c
  let data := vtzeroextend type (c.block i).data 0 size
  some (i, c.set i { c.block i with iostate := .BioLocal, type, data, asked := size })

/-- A user is done with a block. -/
def vtblockput (i : Nat) (c : VtCache) : Option VtCache :=
  let b := c.block i
  let heap := b.heap || b.ref = 1 && (b.iostate = .BioVenti || b.iostate = .BioVentiError)
  if 0 < b.ref then some (c.set i { b with ref := b.ref - 1, heap }) else none

/-- `vtcacheglobal` for a block that is not in the cache; `read` is what `vtread` returns. -/
def vtcacheglobal (type : Int32) (size : Nat) (fresh : List UInt8) (victims : List Nat)
    (read : Option (List UInt8)) (c : VtCache) : Option VtCache := do
  let (i, c) ← vtcacheevict size fresh victims c
  match read with
  | none => vtblockput i (c.set i { c.block i with type, iostate := .BioVentiError })
  | some bs =>
    let data := vtzeroextend type (patch (c.block i).data 0 bs) bs.length size
    some (c.set i { c.block i with type, iostate := .BioVenti, data, asked := size })

/-- The copy of a block that is in use has as many bytes as its buffer. -/
def vtblockcopy (i : Nat) (fresh : List UInt8) (victims : List Nat) (c : VtCache) :
    Option VtCache := do
  let b := c.block i
  if b.ref = 0 then none
  else
    let (j, c) ← vtcacheallocblock b.type b.size fresh victims c
    vtblockput i (c.set j { c.block j with data := patch (c.block j).data 0 (b.data.take b.size) })

/-- What is sent to Venti, and the cache afterwards; `ok` is the answer. -/
def vtblockwrite (i : Nat) (ok : Bool) (c : VtCache) : Option (List UInt8 × VtCache) :=
  let b := c.block i
  if b.iostate = .BioLocal then
    some (b.data.take (vtzerotruncate b.type b.data b.size),
      if ok then c.set i { b with iostate := .BioVenti } else c)
  else none

/-- What the users of the cache do: `get` is `vtcachelocal`, or `vtcacheglobal` for a block that is
in the cache, and `store` puts bytes into a block. -/
inductive Op
  | allocblock (type : Int32) (size : Nat) (fresh : List UInt8) (victims : List Nat)
  | global (type : Int32) (size : Nat) (fresh : List UInt8) (victims : List Nat)
      (read : Option (List UInt8))
  | get (i : Nat)
  | put (i : Nat)
  | copy (i : Nat) (fresh : List UInt8) (victims : List Nat)
  | write (i : Nat) (ok : Bool)
  | store (i off : Nat) (bs : List UInt8)

/-- One call, and the cache afterwards. -/
def step (c : VtCache) : Op → Option VtCache
  | .allocblock type size fresh victims => (vtcacheallocblock type size fresh victims c).map (·.2)
  | .global type size fresh victims read => vtcacheglobal type size fresh victims read c
  | .get i => some (c.set i { c.block i with heap := false, ref := (c.block i).ref + 1 })
  | .put i => vtblockput i c
  | .copy i fresh victims => vtblockcopy i fresh victims c
  | .write i ok => (vtblockwrite i ok c).map (·.2)
  | .store i off bs =>
    if off + bs.length ≤ (c.block i).asked then
      some (c.set i { c.block i with data := patch (c.block i).data off bs })
    else none

/-- The sizes that are asked for are in `S`. -/
def Op.Asks (S : Set Nat) : Op → Prop
  | .allocblock _ size _ _ | .global _ size _ _ _ => size ∈ S
  | _ => True

/-- No size is less than another one and more than half of it. -/
def Apart (S : Set Nat) : Prop := ∀ s ∈ S, ∀ t ∈ S, t < s → t ≤ s / 2

/-! ## Histories of the cache -/

/-- A buffer is as long as its user asked for. -/
structure VtBlock.Ok (S : Set Nat) (b : VtBlock) : Prop where
  length : b.data.length = b.size
  size : b.size = 0 ∨ b.size ∈ S
  asked : b.iostate = .BioLocal → b.asked = b.size

/-- All buffers are. -/
def Inv (S : Set Nat) (c : VtCache) : Prop := ∀ i, (c.block i).Ok S

/-- Block `i` has just been taken, and has the size asked for. -/
structure Taken (S : Set Nat) (size i : Nat) (c : VtCache) : Prop where
  length : (c.block i).data.length = size
  size : (c.block i).size = size
  other : ∀ j ≠ i, (c.block j).Ok S

variable {S : Set Nat} {c c' : VtCache} {i j size : Nat} {fresh : List UInt8} {victims : List Nat}
  {b : VtBlock}

@[simp] theorem set_self : (c.set i b).block i = b := Function.update_self ..

theorem set_of_ne (h : j ≠ i) : (c.set i b).block j = c.block j := Function.update_of_ne h ..

theorem Inv.set (h : ∀ j ≠ i, (c.block j).Ok S) (hb : b.Ok S) : Inv S (c.set i b) := by
  intro j
  rcases eq_or_ne j i with rfl | hj
  · rwa [set_self]
  · rw [set_of_ne hj]
    exact h j hj

section

variable (hS : Apart S) (hsize : size = 0 ∨ size ∈ S) (h : Inv S c)
include hS hsize h

theorem allocate_spec (hrun : allocate size fresh i c = some (j, c')) : Taken S size j c' := by
  have hok := h i
  rw [allocate] at hrun
  split_ifs at hrun with hfit hlen
  · obtain ⟨rfl, rfl⟩ := Prod.mk.inj (some.inj hrun)
    exact ⟨by simpa using hlen, by simp, fun j hj => (set_of_ne hj).symm ▸ h j⟩
  -- the buffer is as large as it has to be
  obtain ⟨rfl, rfl⟩ := Prod.mk.inj (some.inj hrun)
  have hle : (c.block i).size ≤ size := by
    by_contra hlt
    have := hS _ (hok.size.resolve_left (by omega)) size (hsize.resolve_left (by omega)) (by omega)
    omega
  have heq : (c.block i).size = size := by omega
  exact ⟨hok.length.trans heq, heq, fun j _ => h j⟩

theorem evictLoop_spec (hrun : evictLoop size fresh victims c = some (i, c')) :
    Taken S size i c' := by
  induction victims generalizing c with
  | nil => cases hrun
  | cons v victims ih =>
    rw [evictLoop] at hrun
    split_ifs at hrun
    · refine allocate_spec hS hsize (.set (fun j _ => h j) ?_) hrun
      exact ⟨(h v).length, (h v).size, nofun⟩
    · refine ih ?_ hrun
      exact Inv.set (fun j _ => h j) ⟨rfl, .inl rfl, nofun⟩

theorem vtcacheevict_spec (hrun : vtcacheevict size fresh victims c = some (i, c')) :
    Taken S size i c' := by
  rw [vtcacheevict] at hrun
  split at hrun
  · split_ifs at hrun
    · exact allocate_spec hS hsize (by exact h) hrun
    · exact evictLoop_spec hS hsize h hrun
  · exact evictLoop_spec hS hsize h hrun

theorem Inv.allocblock {type : Int32}
    (hrun : vtcacheallocblock type size fresh victims c = some (j, c')) : Inv S c' := by
  obtain ⟨⟨i, c1⟩, hevict, hrun⟩ := bind_eq_some_iff.mp hrun
  have ht := vtcacheevict_spec hS hsize h hevict
  obtain ⟨-, rfl⟩ := Prod.mk.inj (some.inj hrun)
  exact .set ht.other ⟨(length_vtzeroextend ..).trans (ht.length.trans ht.size.symm),
    ht.size.symm ▸ hsize, fun _ => ht.size.symm⟩

end

theorem Inv.put (h : Inv S c) (hrun : vtblockput i c = some c') : Inv S c' := by
  rw [vtblockput] at hrun
  split_ifs at hrun
  obtain rfl := some.inj hrun
  exact .set (fun j _ => h j) ⟨(h i).length, (h i).size, (h i).asked⟩

theorem Inv.next (hS : Apart S) (h : Inv S c) {op : Op} (hop : op.Asks S)
    (hrun : step c op = some c') : Inv S c' := by
  cases op with
  | allocblock type size fresh victims =>
    obtain ⟨⟨i, c1⟩, halloc, rfl⟩ := map_eq_some_iff.mp hrun
    exact Inv.allocblock hS (.inr hop) h halloc
  | global type size fresh victims read =>
    obtain ⟨⟨i, c1⟩, hevict, hrun⟩ := bind_eq_some_iff.mp hrun
    have ht := vtcacheevict_spec hS (.inr hop) h hevict
    have hlen := ht.length.trans ht.size.symm
    cases read with
    | none =>
      refine Inv.put (.set ht.other ?_) hrun
      exact ⟨hlen, .inr (ht.size.symm ▸ hop), nofun⟩
    | some bs =>
      obtain rfl := some.inj hrun
      exact .set ht.other ⟨(length_vtzeroextend ..).trans ((length_patch ..).trans hlen),
        .inr (ht.size.symm ▸ hop), nofun⟩
  | get i =>
    obtain rfl := some.inj hrun
    exact .set (fun j _ => h j) ⟨(h i).length, (h i).size, (h i).asked⟩
  | put i => exact h.put hrun
  | copy i fresh victims =>
    rw [step, vtblockcopy] at hrun
    split_ifs at hrun
    obtain ⟨⟨j, c1⟩, halloc, hrun⟩ := bind_eq_some_iff.mp hrun
    have h1 := Inv.allocblock hS (h i).size h halloc
    refine Inv.put (.set (fun k _ => h1 k) ?_) hrun
    exact ⟨(length_patch ..).trans (h1 j).length, (h1 j).size, (h1 j).asked⟩
  | write i ok =>
    obtain ⟨⟨sent, c1⟩, hwrite, rfl⟩ := map_eq_some_iff.mp hrun
    rw [vtblockwrite] at hwrite
    split_ifs at hwrite
    all_goals obtain ⟨-, rfl⟩ := Prod.mk.inj (some.inj hwrite)
    · exact .set (fun j _ => h j) ⟨(h i).length, (h i).size, nofun⟩
    · exact h
  | store i off bs =>
    rw [step] at hrun
    split_ifs at hrun
    obtain rfl := some.inj hrun
    exact .set (fun j _ => h j) ⟨(length_patch ..).trans (h i).length, (h i).size, (h i).asked⟩

theorem Inv.history (hS : Apart S) (h : Inv S c) {ops : List Op} (hops : ∀ op ∈ ops, op.Asks S)
    (hrun : ops.foldlM step c = some c') : Inv S c' := by
  induction ops generalizing c with
  | nil => exact some.inj hrun ▸ h
  | cons op ops ih =>
    obtain ⟨c1, hstep, hrun⟩ := bind_eq_some_iff.mp hrun
    rw [forall_mem_cons] at hops
    exact ih (h.next hS hops.1 hstep) hops.2 hrun

/-- **Blocks are written as their users see them**, in every history of a cache where no size that
is asked for is less than another one and more than half of it. -/
theorem vtblockwrite_sends (hS : Apart S) {ops : List Op} (hops : ∀ op ∈ ops, op.Asks S)
    {nblock mem : Nat} (hrun : ops.foldlM step (vtcachealloc nblock mem) = some c) {ok : Bool}
    {sent : List UInt8} (hwrite : vtblockwrite i ok c = some (sent, c')) :
    sent = (c.block i).seen.take
      (vtzerotruncate (c.block i).type (c.block i).seen (c.block i).asked) := by
  have hok := Inv.history (c := vtcachealloc nblock mem) hS (fun j => ⟨rfl, .inl rfl, nofun⟩)
    hops hrun i
  rw [vtblockwrite] at hwrite
  split_ifs at hwrite with hlocal
  all_goals
    obtain ⟨rfl, -⟩ := Prod.mk.inj (some.inj hwrite)
    rw [VtBlock.seen, hok.asked hlocal, ← hok.length, take_length]

/-- Three bytes are written, and their memory is then used for two. -/
def reused : List Op :=
  [.allocblock 0 3 [0, 0, 0] [0], .store 0 0 [7, 8, 9], .write 0 true, .put 0,
    .allocblock 0 2 [0, 0] [0]]

/-- It is used for three again. -/
def reusedWhole : List Op := reused.take 4 ++ [.allocblock 0 3 [] [0], .store 0 0 [5]]

theorem vtblockwrite_sends_three : ∃ c c',
    reusedWhole.foldlM step (vtcachealloc 1 9) = some c ∧
    vtblockwrite 0 true c = some ([5], c') ∧ [5] = (c.block 0).seen.take
      (vtzerotruncate (c.block 0).type (c.block 0).seen (c.block 0).asked) := by
  have hrun : reusedWhole.foldlM step (vtcachealloc 1 9) = some _ := rfl
  refine ⟨_, _, hrun, rfl, vtblockwrite_sends (S := {3}) ?_ ?_ hrun
    (show vtblockwrite 0 true _ = _ from rfl)⟩
  · rintro s rfl t rfl
    exact (absurd · (Nat.lt_irrefl _))
  · simp [reusedWhole, reused, Op.Asks]

/-- **A block can take bytes of an old one with it.** The two bytes that its user sees are zero, so
that nothing should be sent. -/
theorem vtblockwrite_leaks : ∃ c c', reused.foldlM step (vtcachealloc 1 9) = some c ∧
    vtblockwrite 0 true c = some ([0, 0, 9], c') ∧ (c.block 0).seen = [0, 0] ∧
    vtzerotruncate (c.block 0).type (c.block 0).seen (c.block 0).asked = 0 :=
  ⟨_, _, rfl, rfl, rfl, rfl⟩

end Plan9Port.Venti.Cache
