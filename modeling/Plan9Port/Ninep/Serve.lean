import Plan9Port.Ninep.RoundTrip

/-!
# Forwarding messages

`cmd/9pserve.c` stands between clients and one server. A message is unpacked where it lies, its
tag and fids are translated, and it is sent on: `rewritehdr` puts the translated numbers into the
packet and moves each string that `gstring` had moved down up again, behind its length. A reply
goes the same way back.

One message is followed here, from `convM2S` to what is written. Which thread does what, and when a
tag or a fid is used again, does not matter for what the packets hold; the numbers that `msgnew` and
`fidnew` hand out do. Memory that is allocated on the way is given as an address.
-/

namespace Plan9Port.Ninep

open Memory LittleEndian MsgType List

/-! ## Rewriting the header -/

/-- `PBIT16`. -/
def pbit16 (m : Mem) (p v : Nat) : Mem :=
  patch m p [.ofNat v, .ofNat (v >>> 8)]

/-- `PBIT32`. -/
def pbit32 (m : Mem) (p v : Nat) : Mem :=
  patch m p [.ofNat v, .ofNat (v >>> 8), .ofNat (v >>> 16), .ofNat (v >>> 24)]

/-- `PBIT64`. -/
def pbit64 (m : Mem) (p v : Nat) : Mem :=
  patch m p [.ofNat v, .ofNat (v >>> 8), .ofNat (v >>> 16), .ofNat (v >>> 24), .ofNat (v >>> 32),
    .ofNat (v >>> 40), .ofNat (v >>> 48), .ofNat (v >>> 56)]

/-- Moves a string of the packet up again and restores its length. A string that lies elsewhere is
left alone. -/
def restring (m : Mem) (pkt pn s : Nat) : Mem :=
  if s < pkt ∨ s ≥ pkt + pn then m
  else
    let n := strlen m s
    pbit16 (memmove m (s + 1) s n) (s - 1) n

/-- The numbers in a packet are set anew. -/
def rewritehdr (m : Mem) (f : Fcall) (pkt : Nat) : Mem :=
  let n := gbit32 m pkt
  let m := pbit16 m (pkt + 5) f.tag.toNat
  match MsgType.ofCode f.type with
  | some .tversion | some .rversion => restring m pkt n f.version
  | some .tauth =>
    let m := pbit32 m (pkt + 7) f.afid.toNat
    let m := restring m pkt n f.uname
    restring m pkt n f.aname
  | some .tflush => pbit16 m (pkt + 7) f.oldtag.toNat
  | some .tattach =>
    let m := restring m pkt n f.uname
    let m := restring m pkt n f.aname
    let m := pbit32 m (pkt + 7) f.fid.toNat
    pbit32 m (pkt + 11) f.afid.toNat
  | some .twalk =>
    let m := pbit32 m (pkt + 7) f.fid.toNat
    let m := pbit32 m (pkt + 11) f.newfid.toNat
    f.wnames.foldl (fun m s => restring m pkt n s) m
  | some .tcreate =>
    let m := restring m pkt n f.name
    pbit32 m (pkt + 7) f.fid.toNat
  | some .topen | some .tclunk | some .tremove | some .tstat | some .twstat | some .twrite =>
    pbit32 m (pkt + 7) f.fid.toNat
  | some .tread =>
    let m := pbit32 m (pkt + 7) f.fid.toNat
    pbit64 m (pkt + 11) f.offset.toUInt64.toNat
  | some .rerror => restring m pkt n f.ename
  | _ => m

/-- Packs `f` over its packet, or into the new memory at `fresh` if it has become longer; `none` is
`sysfatal`. -/
def repack (m : Mem) (f : Fcall) (pkt fresh : Nat) : Option (Nat × Mem) :=
  let n := gbit32 m pkt
  let nn := sizeS2M m f
  let pkt := if nn > n then fresh else pkt
  let r := convS2M m f pkt nn
  if r.1 ≤ BIT16SZ then none
  else if r.1 ≠ nn then none
  else some (pkt, r.2)

/-! ## Requests -/

/-- No fid. -/
def NOFID : UInt32 := 0xFFFFFFFF

/-- What all connections share. `xaname` and `user` point to the name that the server was attached
with and to what `getuser` returns. -/
structure Server where
  nfidtab : Nat
  freefid : List Nat
  xafid : UInt32
  attached : Bool
  noauth : Bool
  msize : UInt32
  xaname : Nat
  user : Nat

/-- A client: which number stands for each of its tags and fids. -/
structure Conn where
  tag : UInt16 → Option Nat
  fid : UInt32 → Option Nat

/-- The number of a new fid, never that of `xafid`. -/
def fidnew (srv : Server) : Nat × Server :=
  match srv.freefid with
  | n :: rest => (n, { srv with freefid := rest })
  | [] =>
    let n := if UInt32.ofNat srv.nfidtab = srv.xafid then srv.nfidtab + 1 else srv.nfidtab
    (n, { srv with nfidtab := n + 1 })

/-- `puthash`, on the table of tags. -/
def puttag (c : Conn) (t : UInt16) (n : Nat) : Option Conn :=
  if (c.tag t).isSome then none
  else some { c with tag := fun t' => if t' = t then some n else c.tag t' }

/-- `puthash`, on the table of fids. -/
def putfid (c : Conn) (x : UInt32) (n : Nat) : Option Conn :=
  if (c.fid x).isSome then none
  else some { c with fid := fun x' => if x' = x then some n else c.fid x' }

/-- A message on its way to the server. -/
structure Msg where
  tag : Nat
  isopenfd : Bool
  tx : Fcall
  tpkt : Nat
  fid : Option Nat
  newfid : Option Nat
  afid : Option Nat
  oldm : Option Nat

/-- What 9pserve answers itself. -/
inductive Answer where
  | rversion (msize : UInt32)
  | rflush
  | rerror (ename : String)

/-- A message is answered, or goes to the server; `fatal` is `sysfatal`. -/
inductive Outcome where
  | answered (a : Answer)
  | queued (m : Msg) (mem : Mem)
  | fatal

/-- The messages with a fid and nothing else to translate. -/
def withfid (c : Conn) (m : Msg) (mem : Mem) : Outcome :=
  match c.fid m.tx.fid with
  | none => .answered (.rerror "unknown fid")
  | some n => .queued { m with fid := some n } mem

/-- `DMSYMLINK|DMDEVICE|DMNAMEDPIPE|DMSOCKET`. -/
def unsupported : UInt32 := 0x02000000 ||| 0x00800000 ||| 0x00200000 ||| 0x00100000

/-- The attach that is sent on when 9pserve has attached itself. -/
def reattach (srv : Server) (tx : Fcall) : Fcall :=
  { tx with afid := srv.xafid, aname := srv.xaname, uname := srv.user }

/-- The switch of `connthread`. -/
def connswitch (srv : Server) (c : Conn) (mem : Mem) (fresh : Nat) (m : Msg) :
    Outcome × Server × Conn :=
  match MsgType.ofCode m.tx.type with
  | some .tversion =>
    (.answered (.rversion (if m.tx.msize > srv.msize then srv.msize else m.tx.msize)), srv, c)
  | some .tflush =>
    match c.tag m.tx.oldtag with
    | none => (.answered .rflush, srv, c)
    | some n => (.queued { m with oldm := some n } mem, srv, c)
  | some .tattach =>
    if m.tx.afid ≠ NOFID ∧ c.fid m.tx.afid = none then
      (.answered (.rerror "unknown fid"), srv, c)
    else
      let m := { m with afid := if m.tx.afid ≠ NOFID then c.fid m.tx.afid else none }
      let (n, srv) := fidnew srv
      match putfid c m.tx.fid n with
      | none => (.answered (.rerror "duplicate fid"), srv, c)
      | some c =>
        let m := { m with fid := some n }
        if srv.attached ∧ m.afid = none then
          if byte mem m.tx.aname ≠ 0 ∧ cstring mem srv.xaname ≠ cstring mem m.tx.aname then
            (.answered (.rerror "invalid attach name"), srv, c)
          else
            let tx := reattach srv m.tx
            match repack mem tx m.tpkt fresh with
            | none => (.fatal, srv, c)
            | some (tpkt, mem) => (.queued { m with tx := tx, tpkt := tpkt } mem, srv, c)
        else (.queued m mem, srv, c)
  | some .twalk =>
    match c.fid m.tx.fid with
    | none => (.answered (.rerror "unknown fid"), srv, c)
    | some n =>
      let m := { m with fid := some n }
      if m.tx.newfid = m.tx.fid then (.queued { m with newfid := some n } mem, srv, c)
      else
        let (n', srv) := fidnew srv
        match putfid c m.tx.newfid n' with
        | none => (.answered (.rerror "duplicate fid"), srv, c)
        | some c => (.queued { m with newfid := some n' } mem, srv, c)
  | some .tauth =>
    if srv.attached then (.answered (.rerror "authentication not required"), srv, c)
    else if srv.noauth then (.answered (.rerror "authentication rejected"), srv, c)
    else
      let (n, srv) := fidnew srv
      match putfid c m.tx.afid n with
      | none => (.answered (.rerror "duplicate fid"), srv, c)
      | some c => (.queued { m with afid := some n } mem, srv, c)
  | some .tcreate =>
    if m.tx.perm &&& unsupported ≠ 0 then
      (.answered (.rerror "unsupported file type"), srv, c)
    else (withfid c m mem, srv, c)
  | some .topenfd =>
    -- any bit but those of OTRUNC and the two of the mode
    if m.tx.mode &&& ~~~(0x10 ||| 3) ≠ 0 then (.answered (.rerror "bad openfd mode"), srv, c)
    else
      let m := { m with isopenfd := true, tx := { m.tx with type := MsgType.topen.code } }
      (withfid c m (patch mem (m.tpkt + 4) [MsgType.topen.code]), srv, c)
  | some .topen | some .tclunk | some .tread | some .twrite | some .tremove | some .tstat
  | some .twstat => (withfid c m mem, srv, c)
  | _ => (.queued m mem, srv, c)

/-- The numbers that were looked up go into the message. -/
def translate (m : Msg) : Msg :=
  { m with
    tx :=
      { m.tx with
        tag := .ofNat m.tag
        fid := m.fid.elim m.tx.fid .ofNat
        newfid := m.newfid.elim m.tx.newfid .ofNat
        afid := m.afid.elim m.tx.afid .ofNat
        oldtag := m.oldm.elim m.tx.oldtag .ofNat } }

/-- What `connthread` does with the message `tx`, unpacked at `tpkt`; `tag` is from `msgnew`. -/
def connmsg (srv : Server) (c : Conn) (mem : Mem) (tag : Nat) (tx : Fcall) (tpkt fresh : Nat) :
    Outcome × Server × Conn :=
  match puttag c tx.tag tag with
  | none => (.answered (.rerror "duplicate tag"), srv, c)
  | some c =>
    match connswitch srv c mem fresh ⟨tag, false, tx, tpkt, none, none, none, none⟩ with
    | (.queued m mem, srv, c) => (.queued (translate m) mem, srv, c)
    | r => r

/-- What `outputthread` writes. -/
def output (mem : Mem) (m : Msg) : List UInt8 :=
  let mem := rewritehdr mem m.tx m.tpkt
  slice mem m.tpkt (gbit32 mem m.tpkt)

/-! ## Replies -/

/-- The reply as an `Ropenfd`, in `n+4` bytes at `rpkt'`; `fd` is the end of the pipe that the
client gets, after a `pipe` that did not fail. -/
def xopenfd (mem : Mem) (rx : Fcall) (rpkt rpkt' : Nat) (fd : Int32) : Fcall × Mem :=
  let n := gbit32 mem rpkt
  let mem := memmove mem rpkt' rpkt n
  let mem := pbit32 mem (rpkt' + n) fd.toUInt32.toNat
  let mem := pbit32 mem rpkt' (n + 4)
  let mem := patch mem (rpkt' + 4) [MsgType.ropenfd.code]
  ({ rx with type := MsgType.ropenfd.code, unixfd := fd }, mem)

/-- What `connoutthread` writes for the reply `rx`, unpacked at `rpkt`, to a request of type
`txtype`. -/
def connout (mem : Mem) (rx : Fcall) (rpkt : Nat) (txtype : UInt8) (isopenfd : Bool)
    (rpkt' : Nat) (fd : Int32) : List UInt8 :=
  let err := txtype + 1 ≠ rx.type
  if ¬err ∧ isopenfd = true then
    let (rx, mem) := xopenfd mem rx rpkt rpkt' fd
    let mem := rewritehdr mem rx rpkt'
    slice mem rpkt' (gbit32 mem rpkt')
  else
    let mem := rewritehdr mem rx rpkt
    slice mem rpkt (gbit32 mem rpkt)

/-! ## Strings that were moved -/

theorem pbit16_eq (m : Mem) (p v : Nat) : pbit16 m p v = patch m p (le 2 v) := by
  rw [pbit16, le_two]

theorem pbit32_eq (m : Mem) (p v : Nat) : pbit32 m p v = patch m p (le 4 v) := by
  rw [pbit32, le_four]

theorem pbit64_eq (m : Mem) (p v : Nat) : pbit64 m p v = patch m p (le 8 v) := by
  rw [pbit64, le_eight]

/-- The memory `m` with strings of the contents `cs`, moved down to `ss`. -/
def movedAs (cs : Nat → List UInt8) (m : Mem) (ss : List Nat) : Mem :=
  ss.foldl (fun k s => patch k s (cs s ++ [0])) m

variable {cs : Nat → List UInt8}

variable {ss : List Nat} {p n : Nat} {xs : List UInt8} {m : Mem}

/-- A store that misses the strings can be done before they are moved. -/
theorem patch_movedAs (h : ∀ s ∈ ss, p + xs.length ≤ s ∨ s + (cs s).length + 1 ≤ p) :
    patch (movedAs cs m ss) p xs = movedAs cs (patch m p xs) ss := by
  induction ss generalizing m with
  | nil => rfl
  | cons s ss ih =>
    have hs := h s (.head _)
    have hcomm : patch (patch m s (cs s ++ [0])) p xs = patch (patch m p xs) s (cs s ++ [0]) :=
      patch_comm m (by rw [length_append, length_singleton]; omega)
    rw [movedAs, foldl_cons, ← movedAs, ih fun s' hs' => h s' (.tail _ hs'), hcomm]
    rfl

theorem slice_movedAs (h : ∀ s ∈ ss, p + n ≤ s ∨ s + (cs s).length + 1 ≤ p) :
    slice (movedAs cs m ss) p n = slice m p n := by
  induction ss generalizing m with
  | nil => rfl
  | cons s ss ih =>
    have hs := h s (.head _)
    rw [movedAs, foldl_cons, ← movedAs, ih fun s' hs' => h s' (.tail _ hs'),
      slice_patch_of_disjoint (by rw [length_append, length_singleton]; omega)]

theorem length_movedAs (m : Mem) (ss : List Nat) : (movedAs cs m ss).length = m.length := by
  induction ss generalizing m with
  | nil => rfl
  | cons s ss ih => rw [movedAs, foldl_cons, ← movedAs, ih, length_patch]

/-- `m` holds the string `cs s` behind its length, which begins one byte before `s`. -/
structure Holds (cs : Nat → List UInt8) (m : Mem) (s : Nat) : Prop where
  pos : 0 < s
  nul_free : 0 ∉ cs s
  le_length : s + (cs s).length + 1 ≤ m.length
  stored : slice m (s - 1) (2 + (cs s).length) = le 2 (cs s).length ++ cs s

variable {s pkt pn : Nat} {t : MsgType} {f g : Fcall}

theorem Holds.patch (h : Holds cs m s) (hp : p + xs.length ≤ s - 1) : Holds cs (patch m p xs) s :=
  ⟨h.pos, h.nul_free, by rw [length_patch]; exact h.le_length, by
    rw [slice_patch_of_disjoint (by omega), h.stored]⟩

/-- Moving the first of the strings up again. -/
theorem restring_movedAs (hs : Holds cs m s) (hlo : pkt ≤ s) (hhi : s < pkt + pn)
    (hss : ∀ s' ∈ ss, s + (cs s).length + 1 < s') :
    restring (movedAs cs m (s :: ss)) pkt pn s = movedAs cs m ss := by
  obtain ⟨hpos, hnul, hlen, hstored⟩ := hs
  obtain ⟨k, hk⟩ : ∃ k, k = movedAs cs (patch m s (cs s ++ [0])) ss := ⟨_, rfl⟩
  have hmove : movedAs cs m (s :: ss) = k := by rw [hk]; rfl
  have hcstr : CStr k s (cs s) := by
    refine ⟨hnul, ?_⟩
    rw [hk, slice_movedAs fun s' hs' => by
      have := hss s' hs'
      rw [length_append, length_singleton]
      omega]
    exact slice_patch_self (by rw [length_append, length_singleton]; omega)
  have hstrlen : strlen k s = (cs s).length := by rw [strlen, hcstr.cstring_eq]
  have hread : slice k s (cs s).length = cs s := by
    have h := hcstr.stored
    rw [slice_append_iff] at h
    exact h.1
  -- length and string, stored in the order of the source, make one range
  have hrange : Memory.patch (Memory.patch k (s + 1) (cs s)) (s - 1) (le 2 (cs s).length) =
      Memory.patch k (s - 1) (slice m (s - 1) (2 + (cs s).length)) := by
    rw [patch_comm k (by rw [length_le]; omega), hstored, ← patch_patch_append, length_le,
      show s - 1 + 2 = s + 1 by omega]
  rw [hmove, restring, if_neg (by omega), hstrlen, pbit16_eq, memmove, hread, hrange, hk,
    patch_movedAs fun s' hs' => by
      have := hss s' hs'
      rw [length_slice (by omega)]
      omega]
  rw [patch_patch_restore (by omega) (by rw [length_append, length_singleton]; omega)
    (by omega)]

/-- Moving all strings up again, in their order. -/
theorem foldl_restring (hss : ∀ s ∈ ss, Holds cs m s) (hrange : ∀ s ∈ ss, pkt ≤ s ∧ s < pkt + pn)
    (hsorted : ss.Pairwise fun s s' => s + (cs s).length + 1 < s') :
    ss.foldl (fun k s => restring k pkt pn s) (movedAs cs m ss) = m := by
  induction ss with
  | nil => rfl
  | cons s ss ih =>
    rw [pairwise_cons] at hsorted
    obtain ⟨hlo, hhi⟩ := hrange s (.head _)
    rw [foldl_cons, restring_movedAs (hss s (.head _)) hlo hhi hsorted.1]
    exact ih (fun s' hs' => hss s' (.tail _ hs'))
      (fun s' hs' => hrange s' (.tail _ hs')) hsorted.2

/-! ## What `rewritehdr` does -/

/-- Stores into a packet, each given by its offset. -/
def stores (m : Mem) (pkt : Nat) (xs : List (Nat × List UInt8)) : Mem :=
  xs.foldl (fun m x => patch m (pkt + x.1) x.2) m

theorem stores_append (m : Mem) (pkt : Nat) (xs ys : List (Nat × List UInt8)) :
    stores m pkt (xs ++ ys) = stores (stores m pkt xs) pkt ys := by
  rw [stores, stores, stores, foldl_append]

/-- The numbers that `rewritehdr` stores before it moves strings, with their offsets. -/
def numbersBefore (f : Fcall) (t : MsgType) : List (Nat × List UInt8) :=
  (5, le 2 f.tag.toNat) ::
    match t with
    | .tauth => [(7, le 4 f.afid.toNat)]
    | .twalk => [(7, le 4 f.fid.toNat), (11, le 4 f.newfid.toNat)]
    | _ => []

/-- The numbers that `rewritehdr` stores after it has moved strings. -/
def numbersAfter (f : Fcall) (t : MsgType) : List (Nat × List UInt8) :=
  match t with
  | .tflush => [(7, le 2 f.oldtag.toNat)]
  | .tattach => [(7, le 4 f.fid.toNat), (11, le 4 f.afid.toNat)]
  | .tcreate | .topen | .tclunk | .tremove | .tstat | .twstat | .twrite =>
    [(7, le 4 f.fid.toNat)]
  | .tread => [(7, le 4 f.fid.toNat), (11, le 8 f.offset.toUInt64.toNat)]
  | _ => []

theorem rewritehdr_eq (ht : ofCode f.type = some t) :
    rewritehdr m f pkt = stores ((f.strings t).foldl (fun k s => restring k pkt (gbit32 m pkt) s)
      (stores m pkt (numbersBefore f t))) pkt (numbersAfter f t) := by
  cases t <;>
    simp only [rewritehdr, ht, numbersBefore, numbersAfter, Fcall.strings, stores, pbit16_eq,
      pbit32_eq, pbit64_eq, foldl_cons, foldl_nil]

theorem stores_movedAs {xs : List (Nat × List UInt8)}
    (h : ∀ x ∈ xs, ∀ s ∈ ss, pkt + x.1 + x.2.length ≤ s - 1) :
    stores (movedAs cs m ss) pkt xs = movedAs cs (stores m pkt xs) ss := by
  induction xs generalizing m with
  | nil => rfl
  | cons x xs ih =>
    have hx := h x (.head _)
    rw [stores, foldl_cons, ← stores, patch_movedAs fun s hs => by have := hx s hs; omega,
      ih fun y hy => h y (.tail _ hy)]
    rfl

theorem Holds.stores {xs : List (Nat × List UInt8)} (h : Holds cs m s)
    (hxs : ∀ x ∈ xs, pkt + x.1 + x.2.length ≤ s - 1) : Holds cs (stores m pkt xs) s := by
  induction xs generalizing m with
  | nil => exact h
  | cons x xs ih =>
    exact ih (h.patch (hxs x (.head _))) fun y hy => hxs y (.tail _ hy)

/-! ### After `convM2S` -/

section Unpacked

variable {m' : Mem} {ap nap size : Nat}

/-- A string field comes after the numbers that a layout begins with. -/
theorem length_wire_nums_le {nums rest gs : List Field} {w : Nat} {bs : List UInt8}
    (hnums : ∀ x ∈ nums, ∃ w v, x = Field.num w v) (h : gs ++ [.blob w bs] <+: nums ++ rest) :
    (wire nums).length ≤ (wire gs).length := by
  induction nums generalizing gs with
  | nil => simp
  | cons x nums ih =>
    obtain ⟨w', v, rfl⟩ := hnums x (.head _)
    rcases gs with _ | ⟨y, gs⟩
    · have := (cons_prefix_cons.mp h).1
      cases this
    · rw [cons_append, cons_append, cons_prefix_cons] at h
      have := ih (fun x hx => hnums x (.tail _ hx)) h.2
      rw [h.1, wire_cons, wire_cons, length_append, length_append]
      omega

section Packet

variable (h : Read m ap nap size f m' t)
include h

theorem Read.past_nums (nums : List Field) {rest : List Field}
    (hf : fields (unread m) f t = nums ++ rest) (hnums : ∀ x ∈ nums, ∃ w v, x = Field.num w v) :
    ∀ s ∈ f.strings t, ap + 7 + (wire nums).length ≤ s - 1 := by
  intro s hs
  obtain ⟨gs, hpre, heq⟩ := h.took.places s hs
  rw [hf] at hpre
  have := length_wire_nums_le hnums hpre
  omega

theorem Read.holds (hmem : ap + nap ≤ m.length) (hs : s ∈ f.strings t)
    (hnul : 0 ∉ (unread m).str s) :
    Holds (unread m).str m s := by
  obtain ⟨hpos, hend, -⟩ := h.took.strings s hs
  obtain ⟨gs, ⟨rest, hpre⟩, heq⟩ := h.took.places s hs
  have hle := h.le
  simp only at hend
  refine ⟨by omega, hnul, by omega, ?_⟩
  have hbytes := h.took.bytes
  rw [← hpre, wire_append, wire_append, append_assoc, slice_append_iff] at hbytes
  have hstr := (slice_append_iff.mp hbytes.2).1
  rw [show ap + 7 + (wire gs).length = s - 1 by omega] at hstr
  simpa [strField, Field.bytes, wire_cons] using hstr

/-- Unpacking leaves the size alone. -/
theorem Read.gbit32_eq : gbit32 m' ap = gbit32 m ap := by
  have hout : ∀ i < 4, m'[ap + i]? = m[ap + i]? := fun i hi => h.took.outside _ (by omega)
  simp only [gbit32, byte, hout 1 (by omega), hout 2 (by omega), hout 3 (by omega)]
  rw [show m'[ap]? = m[ap]? from hout 0 (by omega)]

theorem Read.length_eq : m'.length = m.length := by
  have hmoved : m' = movedAs (unread m).str m (f.strings t) := h.took.moved
  rw [hmoved, length_movedAs]

/-- **The packet is as it was**, but for the numbers: `g` is the message with other numbers. -/
theorem rewritehdr_moveddown (hmem : ap + nap ≤ m.length) (hsize : gbit32 m ap = size)
    (hnul : ∀ s ∈ f.strings t, 0 ∉ (unread m).str s) (hg : g.type = f.type)
    (hstr : g.strings t = f.strings t) :
    rewritehdr m' g ap = stores m ap (numbersBefore g t ++ numbersAfter g t) := by
  have hbefore : ∀ x ∈ numbersBefore g t, ∀ s ∈ f.strings t, ap + x.1 + x.2.length ≤ s - 1 := by
    intro x hx s hs
    have h7 := h.past_nums [] rfl (by simp) s hs
    cases t
    case tauth =>
      have h11 := h.past_nums [.num BIT32SZ f.afid.toNat] rfl (by simp) s hs
      simp only [numbersBefore, mem_cons, not_mem_nil, or_false] at hx
      rcases hx with rfl | rfl <;> simp at h7 h11 ⊢ <;> omega
    case twalk =>
      have h17 := h.past_nums [.num BIT32SZ f.fid.toNat, .num BIT32SZ f.newfid.toNat,
        .num BIT16SZ f.nwname.toNat] rfl (by simp) s hs
      simp only [numbersBefore, mem_cons, not_mem_nil, or_false] at hx
      rcases hx with rfl | rfl | rfl <;> simp at h7 h17 ⊢ <;> omega
    all_goals
      simp only [numbersBefore, mem_singleton] at hx
      subst hx
      simp at h7 ⊢
      omega
  have hn : gbit32 m' ap = size := h.gbit32_eq.trans hsize
  have hmoved : m' = movedAs (unread m).str m (f.strings t) := h.took.moved
  rw [rewritehdr_eq (hg ▸ h.type), hn, hstr, hmoved, stores_movedAs hbefore, foldl_restring
    (fun s hs => (h.holds hmem hs (hnul s hs)).stores fun x hx => hbefore x hx s hs)
    (fun s hs => ?_) h.took.sorted]
  · rw [stores_append]
  · obtain ⟨hlo, hhi, -⟩ := h.took.strings s hs
    simp only at hhi
    omega

end Packet

end Unpacked

/-! ## Requests and replies -/

/-- A packet with other bytes at some offsets. -/
def relabel (bs : List UInt8) (xs : List (Nat × List UInt8)) : List UInt8 :=
  xs.foldl (fun bs x => patch bs x.1 x.2) bs

theorem slice_stores (h : pkt + n ≤ m.length) (xs : List (Nat × List UInt8)) :
    slice (stores m pkt xs) pkt n = relabel (slice m pkt n) xs := by
  induction xs generalizing m with
  | nil => rfl
  | cons x xs ih =>
    rw [stores, foldl_cons, ← stores, ih (by rwa [length_patch]), slice_patch_within h]
    rfl

/-- The size stays where nothing is stored over it. -/
theorem gbit32_patch (h : pkt + 4 ≤ p) : gbit32 (patch m p xs) pkt = gbit32 m pkt := by
  have hout : ∀ i < 4, (patch m p xs)[pkt + i]? = m[pkt + i]? := fun i hi =>
    getElem?_patch_of_disjoint (by omega)
  simp only [gbit32, byte, hout 1 (by omega), hout 2 (by omega), hout 3 (by omega)]
  rw [show (patch m p xs)[pkt]? = m[pkt]? from hout 0 (by omega)]

theorem gbit32_stores {xs : List (Nat × List UInt8)} (h : ∀ x ∈ xs, 4 ≤ x.1) :
    gbit32 (stores m pkt xs) pkt = gbit32 m pkt := by
  induction xs generalizing m with
  | nil => rfl
  | cons x xs ih =>
    have hx := h x (.head _)
    rw [stores, foldl_cons, ← stores, ih fun y hy => h y (.tail _ hy), gbit32_patch (by omega)]

theorem le_offset_numbers (f : Fcall) (t : MsgType) :
    ∀ x ∈ numbersBefore f t ++ numbersAfter f t, 4 ≤ x.1 := by
  cases t <;> simp [numbersBefore, numbersAfter]

/-- What is written after `rewritehdr`. -/
theorem slice_rewritehdr {m' : Mem} {ap nap size : Nat} (h : Read m ap nap size f m' t)
    (hmem : ap + nap ≤ m.length) (hsize : gbit32 m ap = size)
    (hnul : ∀ s ∈ f.strings t, 0 ∉ (unread m).str s) (hg : g.type = f.type)
    (hstr : g.strings t = f.strings t) :
    slice (rewritehdr m' g ap) ap (gbit32 (rewritehdr m' g ap) ap) =
      relabel (slice m ap size) (numbersBefore g t ++ numbersAfter g t) := by
  have hle := h.le
  rw [rewritehdr_moveddown h hmem hsize hnul hg hstr, gbit32_stores (le_offset_numbers g t), hsize,
    slice_stores (by omega)]

/-- The types of requests. -/
def MsgType.isRequest : MsgType → Bool
  | .tversion | .tauth | .tattach | .tflush | .twalk | .topen | .tcreate | .tread | .twrite
  | .tclunk | .tremove | .tstat | .twstat | .topenfd => true
  | _ => false

/-- A request with other numbers, and as a `Topen` if it is a `Topenfd`. -/
def readdress (t : MsgType) (tag oldtag fid newfid afid : Nat) (bs : List UInt8) : List UInt8 :=
  relabel bs <| (5, le 2 tag) ::
    match t with
    | .tflush => [(7, le 2 oldtag)]
    | .tauth => [(7, le 4 afid)]
    | .tattach => [(7, le 4 fid), (11, le 4 afid)]
    | .twalk => [(7, le 4 fid), (11, le 4 newfid)]
    | .topenfd => [(4, [MsgType.topen.code]), (7, le 4 fid)]
    | .topen | .tcreate | .tread | .twrite | .tclunk | .tremove | .tstat | .twstat =>
      [(7, le 4 fid)]
    | _ => []

/-- The numbers are those that the connection has for the numbers of the request. -/
def Translated (srv : Server) (c : Conn) (tx : Fcall) (oldtag fid newfid afid : Nat) :
    MsgType → Prop
  | .tflush => c.tag tx.oldtag = some oldtag
  | .tauth => c.fid tx.afid = some afid
  | .tattach => c.fid tx.fid = some fid ∧
      if tx.afid = NOFID then afid = (if srv.attached then srv.xafid else NOFID).toNat
      else c.fid tx.afid = some afid
  | .twalk => c.fid tx.fid = some fid ∧ c.fid tx.newfid = some newfid
  | .topen | .topenfd | .tcreate | .tread | .twrite | .tclunk | .tremove | .tstat | .twstat =>
    c.fid tx.fid = some fid
  | _ => True

theorem le_ofNat16 (v : Nat) : le 2 (UInt16.ofNat v).toNat = le 2 v := by
  rw [UInt16.toNat_ofNat']
  exact le_mod 2 v

theorem le_ofNat32 (v : Nat) : le 4 (UInt32.ofNat v).toNat = le 4 v := by
  rw [UInt32.toNat_ofNat']
  exact le_mod 4 v

/-! ### What is queued -/

theorem fidnew_eq (srv : Server) :
    ∃ n srv', fidnew srv = (n, srv') ∧ srv'.attached = srv.attached ∧
      reattach srv' = reattach srv := by
  rw [fidnew]
  split
  · exact ⟨_, _, rfl, rfl, rfl⟩
  · exact ⟨_, _, rfl, rfl, rfl⟩

variable {c c' : Conn} {srv' : Server}

theorem putfid_eq_some {x : UInt32} (h : putfid c x n = some c') :
    c'.tag = c.tag ∧ c'.fid x = some n ∧ ∀ y k, c.fid y = some k → c'.fid y = some k := by
  rw [putfid] at h
  split_ifs at h with hsome
  cases h
  refine ⟨rfl, if_pos rfl, fun y k hk => ?_⟩
  have hne : y ≠ x := by
    rintro rfl
    simp [hk] at hsome
  simp [hne, hk]

theorem puttag_eq_some {x : UInt16} (h : puttag c x n = some c') :
    c'.fid = c.fid ∧ c'.tag x = some n := by
  rw [puttag] at h
  split_ifs at h
  cases h
  exact ⟨rfl, if_pos rfl⟩

theorem withfid_eq_queued {m m' : Msg} {mem mem' : Mem}
    (h : (withfid c m mem, srv, c) = (.queued m' mem', srv', c')) :
    ∃ k, c.fid m.tx.fid = some k ∧ m' = { m with fid := some k } ∧ mem' = mem ∧ srv' = srv ∧
      c' = c := by
  rw [withfid] at h
  split at h
  · cases h
  · next k hk =>
    cases h
    exact ⟨k, hk, rfl, rfl, rfl, rfl⟩

theorem queued_inj {m m' : Msg} {mem mem' : Mem}
    (h : (Outcome.queued m mem, srv, c) = (.queued m' mem', srv', c')) :
    m = m' ∧ mem = mem' ∧ srv = srv' ∧ c = c' := by
  cases h
  exact ⟨rfl, rfl, rfl, rfl⟩

/-- The memory that 9pserve needs to attach for a client: the names lie outside of the packets. -/
structure Attachable (srv : Server) (mem : Mem) (tx : Fcall) (pkt n fresh : Nat) : Prop where
  valid : (reattach srv tx).Valid mem .tattach
  user : srv.user ≠ nil
  xaname : srv.xaname ≠ nil
  apart : (reattach srv tx).Apart mem .tattach pkt (pkt + n)
  apart_fresh : (reattach srv tx).Apart mem .tattach fresh
    (fresh + wireSize mem (reattach srv tx) .tattach)
  fits : fresh + wireSize mem (reattach srv tx) .tattach ≤ mem.length
  small : wireSize mem (reattach srv tx) .tattach < 2 ^ 32

/-- A packet that 9pserve has received, and what `convM2S` made of it. -/
structure Received (mem : Mem) (pkt n : Nat) (f : Fcall) (mem' : Mem) (t : MsgType) : Prop where
  read : Read mem pkt n n f mem' t
  range : pkt + n ≤ mem.length
  size : gbit32 mem pkt = n
  nul_free : ∀ s ∈ f.strings t, 0 ∉ (unread mem).str s

variable {mem mem' : Mem} {tx : Fcall}

theorem Received.of_convM2S {f0 : Fcall} (hmem : pkt + n ≤ mem.length)
    (h : convM2S mem pkt n f0 = (n, tx, mem')) (hn : n ≠ 0) (ht : ofCode tx.type = some t)
    (hnul : ∀ s ∈ tx.strings t, 0 ∉ (unread mem).str s) : Received mem pkt n tx mem' t := by
  obtain ⟨t', hread⟩ := convM2S_sound hmem h hn
  obtain rfl : t' = t := Option.some.inj (hread.type.symm.trans ht)
  exact ⟨hread, hmem, (convM2S_cases h hn).2.1.symm, hnul⟩

theorem Received.output_eq (h : Received mem pkt n tx mem' t) {m : Msg} (htpkt : m.tpkt = pkt)
    (htype : m.tx.type = tx.type) (hstr : m.tx.strings t = tx.strings t) :
    output mem' m = relabel (slice mem pkt n) (numbersBefore m.tx t ++ numbersAfter m.tx t) := by
  rw [output, htpkt]
  exact slice_rewritehdr h.read h.range h.size h.nul_free htype hstr

/-- The offset that is stored into a `Tread` is the one that is there. -/
theorem Received.offset_eq (h : Received mem pkt n tx mem' .tread) (xs ys : List UInt8)
    (hxs : xs.length = 2) (hys : ys.length = 4) :
    relabel (slice mem pkt n) [(5, xs), (7, ys), (11, le 8 tx.offset.toUInt64.toNat)] =
      relabel (slice mem pkt n) [(5, xs), (7, ys)] := by
  have hoff : slice (slice mem pkt n) 11 (le 8 tx.offset.toUInt64.toNat).length =
      le 8 tx.offset.toUInt64.toNat := by
    have hpast : ∀ w v k, w ≤ k → (le w v).drop k = [] := fun w v k hk =>
      drop_eq_nil_of_le (by rwa [length_le])
    rw [h.read.bytes]
    simp [fields, header, Field.bytes, slice, drop_append, hpast]
  simp only [relabel, foldl_cons, foldl_nil]
  rw [patch_comm _ (by omega), patch_comm (slice mem pkt n) (p := 5) (by omega), patch_eq_self hoff]

/-- The attach that takes the place of a client's, as a packet. -/
def attachPacket (srv : Server) (mem : Mem) (tx : Fcall) : List UInt8 :=
  wire (header (wireSize mem (reattach srv tx) .tattach) (reattach srv tx) ++
    fields (view mem) (reattach srv tx) .tattach)

theorem length_attachPacket (srv : Server) (mem : Mem) (tx : Fcall) :
    (attachPacket srv mem tx).length = wireSize mem (reattach srv tx) .tattach :=
  length_wire_header _ _ _ _

variable {srv : Server} {fresh : Nat}

/-- Packing again succeeds, over the packet or into the new memory, where the names are not. -/
theorem Attachable.repack_eq (ha : Attachable srv mem tx pkt n fresh) (hn : gbit32 mem pkt = n)
    (hmem : pkt + n ≤ mem.length) (htype : ofCode tx.type = some .tattach) :
    ∃ p, repack mem (reattach srv tx) pkt fresh = some (p, patch mem p (attachPacket srv mem tx)) ∧
      p + (attachPacket srv mem tx).length ≤ mem.length ∧
      (reattach srv tx).Apart mem .tattach p (p + (attachPacket srv mem tx).length) := by
  have hsmall := ha.small
  have hapart := ha.apart
  have hftype : ofCode (reattach srv tx).type = some .tattach := htype
  have hsize : sizeS2M mem (reattach srv tx) = wireSize mem (reattach srv tx) .tattach := by
    rw [sizeS2M_eq hftype ha.valid, ← wireSize, Nat.mod_eq_of_lt hsmall]
  obtain ⟨w, hw⟩ : ∃ w, w = wireSize mem (reattach srv tx) .tattach := ⟨_, rfl⟩
  obtain ⟨p, hp, hpfits, hpapart⟩ : ∃ p, p = (if w > n then fresh else pkt) ∧
      p + w ≤ mem.length ∧ (reattach srv tx).Apart mem .tattach p (p + w) := by
    refine ⟨_, rfl, ?_⟩
    split_ifs with hlt
    · rw [hw]
      exact ⟨ha.fits, ha.apart_fresh⟩
    · refine ⟨by omega, ⟨fun s hs hne => ?_, fun b hb => ?_⟩⟩
      · have := hapart.strings s hs hne
        omega
      · have := hapart.blobs b hb
        omega
  rw [length_attachPacket, ← hw]
  refine ⟨p, ?_, hpfits, hpapart⟩
  rw [hw] at hpapart
  have hpack := convS2M_eq hftype ha.valid hpapart hsmall le_rfl
  have hge : 7 ≤ wireSize mem (reattach srv tx) .tattach := by simp [wireSize]
  simp only [repack, hn, hsize, ← hw, ← hp]
  rw [hw, hpack, BIT16SZ, if_neg (by simp only; omega), if_neg (by simp)]
  rfl

variable {mem'' : Mem}

/-- A packet that has been packed again, with its own numbers. -/
theorem output_repacked {m : Msg} (ha : Attachable srv mem tx pkt n fresh) (hn : gbit32 mem pkt = n)
    (hmem : pkt + n ≤ mem.length) (htype : ofCode tx.type = some .tattach)
    (h : repack mem (reattach srv tx) pkt fresh = some (m.tpkt, mem''))
    (hm : m.tx.type = tx.type ∧ m.tx.uname = srv.user ∧ m.tx.aname = srv.xaname) :
    output mem'' m =
      relabel (attachPacket srv mem tx)
        (numbersBefore m.tx .tattach ++ numbersAfter m.tx .tattach) := by
  obtain ⟨hmtype, huname, haname⟩ := hm
  obtain ⟨p, hpack, hpfits, hpapart⟩ := ha.repack_eq hn hmem htype
  obtain ⟨htpkt, rfl⟩ := Prod.mk.inj (Option.some.inj (hpack.symm.trans h))
  have hge : 7 ≤ (attachPacket srv mem tx).length := by
    rw [length_attachPacket]
    simp [wireSize]
  have hsmall : (attachPacket srv mem tx).length < 2 ^ 32 := by
    rw [length_attachPacket]
    exact ha.small
  have hcut : attachPacket srv mem tx =
      le 4 (attachPacket srv mem tx).length ++ (attachPacket srv mem tx).drop 4 := by
    rw [length_attachPacket, attachPacket]
    simp [header, Field.bytes]
  obtain ⟨w, hw⟩ : ∃ w, w = attachPacket srv mem tx := ⟨_, rfl⟩
  rw [← hw] at hpfits hpapart hge hsmall hcut ⊢
  have hslice : slice (patch mem p w) p w.length = w := slice_patch_self (by omega)
  have hgbit : gbit32 (patch mem p w) p = w.length := by
    have hhead : slice (patch mem p w) p 4 = le 4 w.length := by
      rw [hcut] at hslice
      have h4 := (slice_append_iff.mp hslice).1
      rw [length_le] at h4
      rw [← hcut] at h4
      exact h4
    have h4 : p + BIT32SZ ≤ (patch mem p w).length := by
      rw [length_patch, BIT32SZ]
      omega
    rw [gbit32_eq h4, BIT32SZ, hhead, ofLe_le_of_lt (by omega)]
  have hrestring : ∀ k s, s = srv.user ∨ s = srv.xaname → restring k p w.length s = k := by
    rintro k s hs
    have hout : s + strlen mem s + 1 ≤ p ∨ p + w.length ≤ s := by
      refine hpapart.strings s ?_ ?_
      · simpa [Fcall.strings, reattach] using hs
      · rcases hs with rfl | rfl
        · exact ha.user
        · exact ha.xaname
    rw [restring, if_pos (by omega)]
  rw [output, rewritehdr_eq (hmtype ▸ htype), ← htpkt, hgbit]
  simp only [Fcall.strings, huname, haname, foldl_cons, foldl_nil,
    hrestring _ _ (Or.inl rfl), hrestring _ _ (Or.inr rfl)]
  rw [← stores_append, gbit32_stores (le_offset_numbers _ _), hgbit,
    slice_stores (by rw [length_patch]; omega), hslice]

/-- The packet whose numbers are translated: the client's, or the attach that takes its place. -/
def forwarded (srv : Server) (mem mem' : Mem) (pkt n : Nat) (tx : Fcall) (t : MsgType) :
    List UInt8 :=
  if srv.attached = true ∧ t = .tattach ∧ tx.afid = NOFID then
    attachPacket srv mem' tx
  else slice mem pkt n

variable {tag k : Nat} {rx : Fcall}

/-- The requests that are sent on with their fid only. -/
theorem Received.output_withfid (h : Received mem pkt n tx mem' t) {m : Msg} (htpkt : m.tpkt = pkt)
    (htx : m.tx = { tx with tag := .ofNat tag, fid := .ofNat k })
    (ht : t ∈ [topen, .tcreate, .tread, .twrite, .tclunk, .tremove, .tstat, .twstat]) :
    output mem' m = relabel (slice mem pkt n) [(5, le 2 tag), (7, le 4 k)] := by
  have hstr : m.tx.strings t = tx.strings t := by
    rw [htx]
    cases t <;> rfl
  rw [h.output_eq htpkt (by rw [htx]) hstr, htx]
  simp only [mem_cons, not_mem_nil, or_false] at ht
  rcases ht with rfl | rfl | rfl | rfl | rfl | rfl | rfl | rfl
  case inr.inr.inl =>
    simp only [numbersBefore, numbersAfter, cons_append, nil_append, le_ofNat16, le_ofNat32]
    exact h.offset_eq _ _ (length_le _ _) (length_le _ _)
  all_goals
    simp only [numbersBefore, numbersAfter, cons_append, nil_append, le_ofNat16, le_ofNat32]

theorem Received.output_openfd (h : Received mem pkt n tx mem' .topenfd) {m : Msg}
    (htpkt : m.tpkt = pkt)
    (htx : m.tx = { tx with type := topen.code, tag := .ofNat tag, fid := .ofNat k }) :
    output (patch mem' (pkt + 4) [topen.code]) m =
      relabel (slice mem pkt n) [(5, le 2 tag), (4, [topen.code]), (7, le 4 k)] := by
  have htype : ofCode m.tx.type = some .topen := by
    rw [htx]
    exact ofCode_code .topen
  have hmem : mem' = mem := h.read.took.moved
  have hall : rewritehdr (patch mem' (pkt + 4) [topen.code]) m.tx pkt =
      stores mem pkt [(5, le 2 tag), (4, [topen.code]), (7, le 4 k)] := by
    rw [rewritehdr_eq htype, hmem, htx]
    simp only [numbersBefore, numbersAfter, Fcall.strings, stores, foldl_cons, foldl_nil,
      le_ofNat16, le_ofNat32]
    rw [patch_comm mem (by rw [length_singleton]; omega)]
  rw [output, htpkt, hall, gbit32_stores (by simp), h.size, slice_stores h.range]

/-- The client has its tag, and the switch has queued the message. -/
theorem connmsg_eq_queued {m : Msg}
    (hq : connmsg srv c mem' tag tx pkt fresh = (.queued m mem'', srv', c')) :
    ∃ c1 m1, c1.tag tx.tag = some tag ∧ connswitch srv c1 mem' fresh
        ⟨tag, false, tx, pkt, none, none, none, none⟩ = (.queued m1 mem'', srv', c') ∧
      translate m1 = m := by
  rw [connmsg] at hq
  cases hput : puttag c tx.tag tag with
  | none => simp [hput] at hq
  | some c1 =>
    simp only [hput] at hq
    split at hq
    · next m1 mem1 srv1 c2 hsw =>
      obtain ⟨rfl, rfl, rfl, rfl⟩ := queued_inj hq
      exact ⟨c1, m1, (puttag_eq_some hput).2, hsw, rfl⟩
    · next r hr =>
      exact absurd hq (hr _ _ _ _)

/-- **Requests**: what is sent to the server is the packet of the client with the numbers
translated, or the attach that takes its place. -/
theorem request_readdressed {m : Msg} (h : Received mem pkt n tx mem' t) (hreq : t.isRequest = true)
    (ha : srv.attached = true → t = .tattach → tx.afid = NOFID → Attachable srv mem' tx pkt n fresh)
    (hq : connmsg srv c mem' tag tx pkt fresh = (.queued m mem'', srv', c')) :
    ∃ oldtag fid newfid afid, c'.tag tx.tag = some tag ∧
      Translated srv c' tx oldtag fid newfid afid t ∧
      output mem'' m = readdress t tag oldtag fid newfid afid
        (forwarded srv mem mem' pkt n tx t) := by
  have ht := h.read.type
  obtain ⟨c1, m1, htag, hsw, rfl⟩ := connmsg_eq_queued hq
  cases t <;> simp only [isRequest, Bool.false_eq_true] at hreq
  all_goals simp only [connswitch, ht] at hsw
  case tversion => simp at hsw
  case tflush =>
    split at hsw
    · simp at hsw
    next k hk =>
    obtain ⟨rfl, rfl, rfl, rfl⟩ := queued_inj hsw
    refine ⟨k, 0, 0, 0, htag, hk, ?_⟩
    rw [h.output_eq rfl rfl rfl, forwarded, if_neg (by simp)]
    simp only [translate, numbersBefore, numbersAfter, Option.elim, le_ofNat16]
    rfl
  case tauth =>
    split_ifs at hsw
    · simp at hsw
    · simp at hsw
    obtain ⟨k, srv2, hnew, -, -⟩ := fidnew_eq srv
    simp only [hnew] at hsw
    split at hsw
    · simp at hsw
    next c3 hputfid =>
    obtain ⟨htags, hfid, -⟩ := putfid_eq_some hputfid
    obtain ⟨rfl, rfl, rfl, rfl⟩ := queued_inj hsw
    refine ⟨0, 0, 0, k, htags ▸ htag, hfid, ?_⟩
    rw [h.output_eq rfl rfl rfl, forwarded, if_neg (by simp)]
    simp only [translate, numbersBefore, numbersAfter, Option.elim, le_ofNat16, le_ofNat32]
    rfl
  case twalk =>
    split at hsw
    · simp at hsw
    next k hk =>
    split_ifs at hsw with hsame
    · obtain ⟨rfl, rfl, rfl, rfl⟩ := queued_inj hsw
      refine ⟨0, k, k, 0, htag, ⟨hk, hsame ▸ hk⟩, ?_⟩
      rw [h.output_eq rfl rfl rfl, forwarded, if_neg (by simp)]
      simp only [translate, numbersBefore, numbersAfter, Option.elim, le_ofNat16, le_ofNat32]
      rfl
    · obtain ⟨k', srv2, hnew, -, -⟩ := fidnew_eq srv
      simp only [hnew] at hsw
      split at hsw
      · simp at hsw
      next c3 hputfid =>
      obtain ⟨htags, hfid, hold⟩ := putfid_eq_some hputfid
      obtain ⟨rfl, rfl, rfl, rfl⟩ := queued_inj hsw
      refine ⟨0, k, k', 0, htags ▸ htag, ⟨hold _ _ hk, hfid⟩, ?_⟩
      rw [h.output_eq rfl rfl rfl, forwarded, if_neg (by simp)]
      simp only [translate, numbersBefore, numbersAfter, Option.elim, le_ofNat16, le_ofNat32]
      rfl
  case tattach =>
    obtain ⟨k, srv2, hnew, hattached, hreattach⟩ := fidnew_eq srv
    simp only [hnew, hattached] at hsw
    by_cases hno : tx.afid = NOFID
    · simp only [hno, ne_eq, not_true_eq_false, false_and, if_false, and_true] at hsw
      split at hsw
      · simp at hsw
      next c3 hputfid =>
      obtain ⟨htags, hfid, -⟩ := putfid_eq_some hputfid
      split_ifs at hsw with hatt hname
      · simp at hsw
      · -- 9pserve has attached: its own names are packed
        split at hsw
        · simp at hsw
        next tpkt mem2 hpack =>
        obtain ⟨rfl, rfl, rfl, rfl⟩ := queued_inj hsw
        refine ⟨0, k, 0, srv.xafid.toNat, htags ▸ htag, ⟨hfid, ?_⟩, ?_⟩
        · rw [if_pos hno, if_pos hatt]
        rw [hreattach] at hpack ⊢
        rw [output_repacked (ha hatt rfl hno) (h.read.gbit32_eq.trans h.size)
          (by rw [h.read.length_eq]; exact h.range) ht hpack ⟨rfl, rfl, rfl⟩, forwarded,
          if_pos ⟨hatt, rfl, hno⟩]
        simp only [translate, numbersBefore, numbersAfter, Option.elim, le_ofNat16, le_ofNat32]
        rfl
      · obtain ⟨rfl, rfl, rfl, rfl⟩ := queued_inj hsw
        refine ⟨0, k, 0, NOFID.toNat, htags ▸ htag, ⟨hfid, ?_⟩, ?_⟩
        · rw [if_pos hno, if_neg hatt]
        · rw [h.output_eq rfl rfl rfl, forwarded, if_neg (by simp [hatt])]
          simp only [translate, numbersBefore, numbersAfter, Option.elim, le_ofNat16,
            le_ofNat32, hno]
          rfl
    · cases hafid : c1.fid tx.afid with
      | none => simp [hno, hafid] at hsw
      | some k' =>
        simp only [hno, hafid, ne_eq, not_false_eq_true, reduceCtorEq, and_false, if_false,
          if_true] at hsw
        split at hsw
        · simp at hsw
        next c3 hputfid =>
        obtain ⟨htags, hfid, hold⟩ := putfid_eq_some hputfid
        obtain ⟨rfl, rfl, rfl, rfl⟩ := queued_inj hsw
        refine ⟨0, k, 0, k', htags ▸ htag, ⟨hfid, ?_⟩, ?_⟩
        · rw [if_neg hno]
          exact hold _ _ hafid
        · rw [h.output_eq rfl rfl rfl, forwarded, if_neg (by simp [hno])]
          simp only [translate, numbersBefore, numbersAfter, Option.elim, le_ofNat16, le_ofNat32]
          rfl
  case topenfd =>
    split_ifs at hsw
    · simp at hsw
    · obtain ⟨k, hk, rfl, rfl, rfl, rfl⟩ := withfid_eq_queued hsw
      refine ⟨0, k, 0, 0, htag, hk, ?_⟩
      rw [h.output_openfd rfl rfl, forwarded, if_neg (by simp)]
      rfl
  case tcreate =>
    split_ifs at hsw
    · simp at hsw
    · obtain ⟨k, hk, rfl, rfl, rfl, rfl⟩ := withfid_eq_queued hsw
      refine ⟨0, k, 0, 0, htag, hk, ?_⟩
      rw [h.output_withfid rfl rfl (by simp), forwarded, if_neg (by simp)]
      rfl
  all_goals
    obtain ⟨k, hk, rfl, rfl, rfl, rfl⟩ := withfid_eq_queued hsw
    refine ⟨0, k, 0, 0, htag, hk, ?_⟩
    rw [h.output_withfid rfl rfl (by simp), forwarded, if_neg (by simp)]
    rfl

theorem withfid_ne_fatal (c : Conn) (m : Msg) (mem : Mem) : withfid c m mem ≠ .fatal := by
  rw [withfid]
  split
  · nofun
  · nofun

/-- Only packing again can be fatal. -/
theorem connmsg_ne_fatal (h : Received mem pkt n tx mem' t)
    (ha : srv.attached = true → t = .tattach → tx.afid = NOFID →
      Attachable srv mem' tx pkt n fresh) :
    (connmsg srv c mem' tag tx pkt fresh).1 ≠ .fatal := by
  have ht := h.read.type
  rw [connmsg]
  cases hput : puttag c tx.tag tag with
  | none => simp
  | some c1 =>
    suffices hsw : (connswitch srv c1 mem' fresh
        ⟨tag, false, tx, pkt, none, none, none, none⟩).1 ≠ .fatal by
      simp only
      split
      · simp
      · exact hsw
    simp only [connswitch, ht]
    cases t
    case tattach =>
      obtain ⟨k, srv2, hnew, hattached, hreattach⟩ := fidnew_eq srv
      simp only [hnew, hattached, hreattach]
      by_cases hno : tx.afid = NOFID
      · simp only [hno, ne_eq, not_true_eq_false, false_and, if_false, and_true]
        split
        · nofun
        split_ifs with hatt hname
        · nofun
        · obtain ⟨p, hpack, -, -⟩ := (ha hatt rfl hno).repack_eq
            (h.read.gbit32_eq.trans h.size) (by rw [h.read.length_eq]; exact h.range) ht
          simp [hpack]
        · nofun
      · cases hafid : c1.fid tx.afid with
        | none => simp [hno]
        | some k' =>
          simp only [hno, ne_eq, not_false_eq_true, reduceCtorEq, and_false, if_false, if_true]
          split
          · nofun
          · nofun
    case tflush =>
      simp only
      split
      · nofun
      · nofun
    case twalk =>
      simp only
      split
      · nofun
      · split_ifs
        · nofun
        · split
          · nofun
          · nofun
    case tauth =>
      simp only
      split_ifs
      · nofun
      · nofun
      · split
        · nofun
        · nofun
    case tcreate | topenfd =>
      simp only
      split_ifs
      · nofun
      · exact withfid_ne_fatal _ _ _
    case topen | tclunk | tread | twrite | tremove | tstat | twstat =>
      exact withfid_ne_fatal _ _ _
    all_goals nofun

/-- The mark of an `openfd` is set where its type is changed. -/
theorem connmsg_isopenfd {m : Msg} (ht : ofCode tx.type = some t)
    (hq : connmsg srv c mem' tag tx pkt fresh = (.queued m mem'', srv', c')) :
    m.isopenfd = decide (t = .topenfd) ∧ (t = .topenfd → m.tx.type = topen.code) := by
  obtain ⟨c1, m1, -, hsw, rfl⟩ := connmsg_eq_queued hq
  simp only [connswitch, ht] at hsw
  cases t
  case topenfd =>
    simp only at hsw
    split_ifs at hsw
    · simp at hsw
    · obtain ⟨k, hk, rfl, -⟩ := withfid_eq_queued hsw
      exact ⟨rfl, fun _ => rfl⟩
  all_goals
    refine ⟨?_, nofun⟩
    grind [withfid_eq_queued, translate]

/-- A reply as an `Ropenfd`, with the descriptor `fd` behind it. -/
def openfdReply (bs : List UInt8) (ctag fd : Nat) : List UInt8 :=
  relabel (bs ++ le 4 fd) [(0, le 4 (bs.length + 4)), (4, [MsgType.ropenfd.code]), (5, le 2 ctag)]

theorem Received.connout_plain (h : Received mem pkt n rx mem' t) (hrep : t.isRequest = false)
    {txtype : UInt8} {isopenfd : Bool} (hno : ¬(txtype + 1 = rx.type ∧ isopenfd = true))
    (ctag : UInt16) (rpkt' : Nat) (fd : Int32) :
    connout mem' { rx with tag := ctag } pkt txtype isopenfd rpkt' fd =
      relabel (slice mem pkt n) [(5, le 2 ctag.toNat)] := by
  have hnumbers : numbersBefore { rx with tag := ctag } t ++
      numbersAfter { rx with tag := ctag } t = [(5, le 2 ctag.toNat)] := by
    cases t <;> simp only [isRequest, Bool.true_eq_false] at hrep <;> rfl
  have hstr : ({ rx with tag := ctag } : Fcall).strings t = rx.strings t := by cases t <;> rfl
  rw [connout, if_neg (by simpa using hno), ← hnumbers]
  exact slice_rewritehdr h.read h.range h.size h.nul_free rfl hstr

theorem Received.connout_openfd (h : Received mem pkt n rx mem' .ropen)
    (htype : rx.type = ropen.code) (ctag : UInt16) {rpkt' : Nat}
    (hroom : rpkt' + n + 4 ≤ mem.length) (fd : Int32) :
    connout mem' { rx with tag := ctag } pkt topen.code true rpkt' fd =
      openfdReply (slice mem pkt n) ctag.toNat fd.toUInt32.toNat := by
  have hmem : mem' = mem := h.read.took.moved
  have hn : n = 24 := h.read.size_eq
  have hlen : (slice mem pkt n).length = n := length_slice h.range
  obtain ⟨w, hw⟩ : ∃ w, w = slice mem pkt n ++ le 4 fd.toUInt32.toNat := ⟨_, rfl⟩
  have hwlen : w.length = n + 4 := by rw [hw, length_append, hlen, length_le]
  have hroom' : rpkt' + (n + 4) ≤ (patch mem rpkt' w).length := by
    rw [length_patch]
    omega
  have hopenfd : xopenfd mem' { rx with tag := ctag } pkt rpkt' fd =
      ({ rx with tag := ctag, type := ropenfd.code, unixfd := fd },
        stores (patch mem rpkt' w) rpkt' [(0, le 4 (n + 4)), (4, [ropenfd.code])]) := by
    simp only [xopenfd, hmem, h.size, pbit32_eq, memmove, stores, foldl_cons, foldl_nil, add_zero]
    rw [hw, ← patch_patch_append, hlen]
  have hrewrite : ∀ g : Fcall, g.type = ropenfd.code → g.tag = ctag → ∀ k,
      rewritehdr k g rpkt' = stores k rpkt' [(5, le 2 ctag.toNat)] := by
    intro g hg htag k
    rw [rewritehdr_eq (t := .ropenfd) (by rw [hg]; exact ofCode_code .ropenfd), ← htag]
    rfl
  obtain ⟨k, hk⟩ : ∃ k, k = stores (patch mem rpkt' w) rpkt'
    [(0, le 4 (n + 4)), (4, [ropenfd.code]), (5, le 2 ctag.toNat)] := ⟨_, rfl⟩
  have hgbit : gbit32 k rpkt' = n + 4 := by
    rw [hk, stores, foldl_cons, ← stores, gbit32_stores (by simp)]
    have h4 : rpkt' + BIT32SZ ≤ (patch (patch mem rpkt' w) (rpkt' + 0) (le 4 (n + 4))).length := by
      rw [length_patch, BIT32SZ]
      omega
    have hself : slice (patch (patch mem rpkt' w) (rpkt' + 0) (le 4 (n + 4))) (rpkt' + 0)
        (le 4 (n + 4)).length = le 4 (n + 4) :=
      slice_patch_self (by rw [length_le]; omega)
    rw [length_le] at hself
    rw [gbit32_eq h4]
    exact (congrArg ofLe hself).trans (ofLe_le_of_lt (by omega))
  rw [connout, if_pos (by rw [htype]; exact ⟨by decide, rfl⟩), hopenfd]
  simp only
  rw [hrewrite _ rfl rfl, ← stores_append, cons_append, cons_append, nil_append,
    ← hk, hgbit, hk, slice_stores hroom', ← hwlen, slice_patch_self (by omega), openfdReply,
    hw, hlen]
  rw [length_append, hlen, length_le]

/-- **9pserve is transparent.** A request that is sent on is the client's packet with its numbers
translated (an openfd as an open, an attach as the one of 9pserve where it has attached itself),
and a reply without NUL bytes in its strings is what the client gets, with its own tag. -/
theorem serve_transparent {f₀ : Fcall} (hmem : pkt + n ≤ mem.length)
    (hconv : convM2S mem pkt n f₀ = (n, tx, mem')) (hn : n ≠ 0)
    (ht : MsgType.ofCode tx.type = some t) (hreq : t.isRequest = true) (srv : Server) (c : Conn)
    (tag fresh : Nat) :
    ((∀ s ∈ tx.strings t, 0 ∉ (unread mem).str s) →
      (srv.attached = true → t = .tattach → tx.afid = NOFID →
        Attachable srv mem' tx pkt n fresh) →
      (connmsg srv c mem' tag tx pkt fresh).1 ≠ .fatal ∧
      ∀ m mem'' srv' c', connmsg srv c mem' tag tx pkt fresh = (.queued m mem'', srv', c') →
        ∃ oldtag fid newfid afid, c'.tag tx.tag = some tag ∧
          Translated srv c' tx oldtag fid newfid afid t ∧
          output mem'' m = readdress t tag oldtag fid newfid afid
            (forwarded srv mem mem' pkt n tx t)) ∧
    ∀ m mem'' srv' c', connmsg srv c mem' tag tx pkt fresh = (.queued m mem'', srv', c') →
      ∀ (rmem : Mem) (rpkt k : Nat) (r₀ rx : Fcall) (rmem' : Mem) (r : MsgType) (rpkt' : Nat)
        (fd : Int32), rpkt + k ≤ rmem.length → convM2S rmem rpkt k r₀ = (k, rx, rmem') → k ≠ 0 →
        MsgType.ofCode rx.type = some r → r.isRequest = false →
        (∀ s ∈ rx.strings r, 0 ∉ (unread rmem).str s) → rpkt' + k + 4 ≤ rmem.length →
        connout rmem' { rx with tag := tx.tag } rpkt m.tx.type m.isopenfd rpkt' fd =
          if t = .topenfd ∧ r = .ropen then
            openfdReply (slice rmem rpkt k) tx.tag.toNat fd.toUInt32.toNat
          else relabel (slice rmem rpkt k) [(5, le 2 tx.tag.toNat)] := by
  constructor
  · intro hnul ha
    have hreceived := Received.of_convM2S hmem hconv hn ht hnul
    refine ⟨connmsg_ne_fatal hreceived ha, ?_⟩
    intro m mem'' srv' c' hq
    exact request_readdressed hreceived hreq ha hq
  · intro m mem'' srv' c' hq rmem rpkt k r₀ rx rmem' r rpkt' fd hrmem hrconv hk hr hrep hrnul hroom
    have hreply := Received.of_convM2S hrmem hrconv hk hr hrnul
    obtain ⟨hopenfd, htopen⟩ := connmsg_isopenfd ht hq
    have hrtype : r.code = rx.type := code_of_ofCode hr
    split_ifs with hboth
    · obtain ⟨rfl, rfl⟩ := hboth
      rw [hopenfd, htopen rfl]
      exact hreply.connout_openfd hrtype.symm tx.tag hroom fd
    refine hreply.connout_plain hrep ?_ tx.tag rpkt' fd
    rintro ⟨htype, his⟩
    obtain rfl : t = .topenfd := by simpa [hopenfd] using his
    -- the only reply whose type follows that of an open
    have hopen : r = .ropen := by
      rw [htopen rfl] at htype
      rw [← htype] at hr
      exact (Option.some.inj hr).symm
    exact hboth ⟨rfl, hopen⟩

/-- A `Tauth` of the user `a`. -/
theorem serve_transparent_auth :
    let mem : Mem := [16, 0, 0, 0, 102, 3, 0, 6, 0, 0, 0, 1, 0, 97, 0, 0]
    let mem' : Mem := [16, 0, 0, 0, 102, 3, 0, 6, 0, 0, 0, 1, 97, 0, 0, 0]
    let srv : Server := ⟨9, [], NOFID, false, false, 8192, 0, 0⟩
    let c : Conn := ⟨fun _ => none, fun x => if x = 5 then some 8 else none⟩
    let tx : Fcall := { (default : Fcall) with
      type := 102, tag := 3, afid := 6, uname := 12, aname := 15, uidnum := -1 }
    convM2S mem 0 16 default = (16, tx, mem') ∧
    ∃ m mem'' srv' c', connmsg srv c mem' 7 tx 0 16 = (.queued m mem'', srv', c') ∧
      ∃ oldtag fid newfid afid, c'.tag 3 = some 7 ∧
        Translated srv c' tx oldtag fid newfid afid .tauth ∧
        output mem'' m = readdress .tauth 7 oldtag fid newfid afid mem := by
  intro mem mem' srv c tx
  have hconv : convM2S mem 0 16 default = (16, tx, mem') := by decide
  refine ⟨hconv, _, _, _, _, rfl, ?_⟩
  exact ((serve_transparent (by decide) hconv (by decide) rfl rfl srv c 7 16).1 (by decide)
    nofun).2 _ _ _ _ rfl

/-- `strlen` ends a string at its first NUL byte: the error `"a\x00b"` reaches the client as a
packet with the string `"a"` and three more bytes. -/
theorem ename_nul_cut :
    let rmem : Mem := [12, 0, 0, 0, 107, 7, 0, 3, 0, 97, 0, 98]
    let rx : Fcall := { (default : Fcall) with type := 107, tag := 7, ename := 8 }
    let rmem' : Mem := [12, 0, 0, 0, 107, 7, 0, 3, 97, 0, 98, 0]
    convM2S rmem 0 12 default = (12, rx, rmem') ∧ MsgType.ofCode rx.type = some .rerror ∧
      connout rmem' { rx with tag := 3 } 0 MsgType.tclunk.code false 0 0 =
        [12, 0, 0, 0, 107, 3, 0, 1, 0, 97, 98, 0] ∧
      relabel rmem [(5, le 2 3)] = [12, 0, 0, 0, 107, 3, 0, 3, 0, 97, 0, 98] := by
  refine ⟨rfl, rfl, ?_, ?_⟩
  · decide
  · decide

end Plan9Port.Ninep
