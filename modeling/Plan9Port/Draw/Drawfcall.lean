import Plan9Port.Ninep.Wire

/-!
# Window system messages

`libdraw/drawfcall.c`: the messages between a drawing program and `devdraw`. Where the 9P
conversions move a cursor along the buffer, these store every field at an offset computed by hand,
most significant byte first. Memory, pointers and strings are those of the 9P conversions.
-/

namespace Plan9Port.Draw

open Memory LittleEndian
open Ninep (Mem nil byte cstring strlen memmove CStr strBytes)

/-! ## Messages -/

/-- The message types of the enumeration in `drawfcall.h`. -/
inductive WsysType
  | rerror | trdmouse | rrdmouse | tmoveto | rmoveto | tcursor | rcursor | tbouncemouse
  | rbouncemouse | trdkbd | rrdkbd | tlabel | rlabel | tinit | rinit | trdsnarf | rrdsnarf
  | twrsnarf | rwrsnarf | trddraw | rrddraw | twrdraw | rwrdraw | ttop | rtop | tresize | rresize
  | tcursor2 | rcursor2 | tctxt | rctxt | trdkbd4 | rrdkbd4
  deriving DecidableEq, Repr

/-- The code of a message type. -/
def WsysType.code : WsysType → UInt8
  | .rerror => 1 | .trdmouse => 2 | .rrdmouse => 3 | .tmoveto => 4 | .rmoveto => 5
  | .tcursor => 6 | .rcursor => 7 | .tbouncemouse => 8 | .rbouncemouse => 9
  | .trdkbd => 10 | .rrdkbd => 11 | .tlabel => 12 | .rlabel => 13 | .tinit => 14 | .rinit => 15
  | .trdsnarf => 16 | .rrdsnarf => 17 | .twrsnarf => 18 | .rwrsnarf => 19
  | .trddraw => 20 | .rrddraw => 21 | .twrdraw => 22 | .rwrdraw => 23
  | .ttop => 24 | .rtop => 25 | .tresize => 26 | .rresize => 27
  | .tcursor2 => 28 | .rcursor2 => 29 | .tctxt => 30 | .rctxt => 31
  | .trdkbd4 => 32 | .rrdkbd4 => 33

/-- The case label a `switch` on the type byte selects; `none` is `default`. -/
def WsysType.ofCode (b : UInt8) : Option WsysType :=
  [.rerror, .trdmouse, .rrdmouse, .tmoveto, .rmoveto, .tcursor, .rcursor, .tbouncemouse,
    .rbouncemouse, .trdkbd, .rrdkbd, .tlabel, .rlabel, .tinit, .rinit, .trdsnarf, .rrdsnarf,
    .twrsnarf, .rwrsnarf, .trddraw, .rrddraw, .twrdraw, .rwrdraw, .ttop, .rtop, .tresize,
    .rresize, .tcursor2, .rcursor2, .tctxt, .rctxt, .trdkbd4, .rrdkbd4].find? fun t => t.code = b

@[simp] theorem WsysType.ofCode_code (t : WsysType) : ofCode t.code = some t := by
  cases t <;> decide

/-- A point. -/
structure Point where
  x : Int32
  y : Int32
  deriving DecidableEq, Repr, Inhabited

/-- A rectangle. -/
structure Rectangle where
  min : Point
  max : Point
  deriving DecidableEq, Repr, Inhabited

/-- `msec` is an `ulong`. -/
structure Mouse where
  buttons : Int32
  xy : Point
  msec : UInt64
  deriving DecidableEq, Repr, Inhabited

/-- A cursor. -/
structure Cursor where
  offset : Point
  clr : Vector UInt8 (2 * 16)
  set : Vector UInt8 (2 * 16)
  deriving DecidableEq, Repr, Inhabited

/-- A cursor of twice the size. -/
structure Cursor2 where
  offset : Point
  clr : Vector UInt8 (4 * 32)
  set : Vector UInt8 (4 * 32)
  deriving DecidableEq, Repr, Inhabited

/-- An unpacked message. Which fields mean something depends on `type`; the strings and the data
are pointers. -/
structure Wsysmsg where
  type : UInt8
  tag : UInt8
  mouse : Mouse
  resized : Int32
  cursor : Cursor
  cursor2 : Cursor2
  arrowcursor : Int32
  rune : UInt32
  winsize : Nat
  label : Nat
  snarf : Nat
  error : Nat
  id : Nat
  data : Nat
  count : UInt32
  rect : Rectangle
  deriving DecidableEq, Repr, Inhabited

/-! ## The code -/

/-- `PUT(p, x)`. -/
def PUT (m : Mem) (p x : Nat) : Mem :=
  patch m p [.ofNat (x >>> 24), .ofNat (x >>> 16), .ofNat (x >>> 8), .ofNat x]

/-- `PUT2(p, x)`. -/
def PUT2 (m : Mem) (p x : Nat) : Mem :=
  patch m p [.ofNat (x >>> 8), .ofNat x]

/-- `GET(p, x)`: the `u32int` that is assigned to `x`. -/
def GET (m : Mem) (p : Nat) : Nat :=
  (byte m p <<< 24) ||| (byte m (p + 1) <<< 16) ||| (byte m (p + 2) <<< 8) ||| byte m (p + 3)

/-- `GET2(p, x)`. -/
def GET2 (m : Mem) (p : Nat) : Nat :=
  (byte m p <<< 8) ||| byte m (p + 1)

/-- The bits of an `int`, as `PUT` shifts them out. -/
def bits (x : Int32) : Nat := x.toUInt32.toNat

/-- An unsigned word assigned to an `int`. -/
def toInt (v : Nat) : Int32 := (UInt32.ofNat v).toInt32

/-- An `int` stored in an `uchar`. -/
def toUchar (x : Int32) : UInt8 := .ofNat (bits x)

/-- The value of an `int` expression; a sum that overflows is undefined. -/
def intValue (n : Nat) : Option Nat :=
  if n < 2 ^ 31 then some n else none

/-- The size of a string on the wire; the `size_t` is returned as an `int`. -/
def stringsize (m : Mem) (s : Nat) : Option Nat :=
  intValue ((4 + (strBytes m s).length) % 2 ^ 32)

/-- The length is an `int`, and so is the size returned; a length that comes out negative is a huge
count for `memmove`, which does not return. -/
def PUTSTRING (m : Mem) (p s : Nat) : Option (Nat × Mem) := do
  let n := (strBytes m s).length % 2 ^ 32
  let size ← intValue (n + 4)
  let m := PUT m p n
  pure (size, memmove m (p + 4) s n)

/-- The string is moved down over its length and terminated there. -/
def GETSTRING (m : Mem) (p : Nat) : Option (Nat × Nat × Mem) := do
  let n := GET m p
  let size ← intValue (n + 4)
  let m := memmove m p (p + 4) n
  let m := patch m (p + n) [0]
  pure (size, p, m)

/-- The size of the packed message, an `int` except with the `uint` of `count`; 0 for an unknown
type. -/
def sizeW2M (m : Mem) (w : Wsysmsg) : Option Nat :=
  match WsysType.ofCode w.type with
  | none => some 0
  | some t =>
    match t with
    | .trdmouse | .rbouncemouse | .rmoveto | .rcursor | .rcursor2 | .trdkbd | .trdkbd4 | .rlabel
    | .rctxt | .rinit | .trdsnarf | .rwrsnarf | .ttop | .rtop | .rresize => some (4 + 1 + 1)
    | .rrdmouse => some (4 + 1 + 1 + 4 + 4 + 4 + 4 + 1)
    | .tbouncemouse => some (4 + 1 + 1 + 4 + 4 + 4)
    | .tmoveto => some (4 + 1 + 1 + 4 + 4)
    | .tcursor => some (4 + 1 + 1 + 4 + 4 + 2 * 16 + 2 * 16 + 1)
    | .tcursor2 => some (4 + 1 + 1 + 4 + 4 + 2 * 16 + 2 * 16 + 4 + 4 + 4 * 32 + 4 * 32 + 1)
    | .rerror => do intValue (4 + 1 + 1 + (← stringsize m w.error))
    | .rrdkbd => some (4 + 1 + 1 + 2)
    | .rrdkbd4 => some (4 + 1 + 1 + 4)
    | .tlabel => do intValue (4 + 1 + 1 + (← stringsize m w.label))
    | .tctxt => do intValue (4 + 1 + 1 + (← stringsize m w.id))
    | .tinit => do intValue (4 + 1 + 1 + (← stringsize m w.winsize) + (← stringsize m w.label))
    | .rrdsnarf | .twrsnarf => do intValue (4 + 1 + 1 + (← stringsize m w.snarf))
    | .rrddraw | .twrdraw => some ((4 + 1 + 1 + 4 + w.count.toNat) % 2 ^ 32)
    | .trddraw | .rwrdraw => some (4 + 1 + 1 + 4)
    | .tresize => some (4 + 1 + 1 + 4 * 4)

/-- The switch of `convW2M`. -/
def bodyW2M (m : Mem) (w : Wsysmsg) (p : Nat) : WsysType → Option Mem
  | .trdmouse | .rbouncemouse | .rmoveto | .rcursor | .rcursor2 | .trdkbd | .trdkbd4 | .rlabel
  | .rctxt | .rinit | .trdsnarf | .rwrsnarf | .ttop | .rtop | .rresize => some m
  | .rerror => (PUTSTRING m (p + 6) w.error).map Prod.snd
  | .rrdmouse =>
    let m := PUT m (p + 6) (bits w.mouse.xy.x)
    let m := PUT m (p + 10) (bits w.mouse.xy.y)
    let m := PUT m (p + 14) (bits w.mouse.buttons)
    let m := PUT m (p + 18) w.mouse.msec.toNat
    some (patch m (p + 19) [toUchar w.resized])
  | .tbouncemouse =>
    let m := PUT m (p + 6) (bits w.mouse.xy.x)
    let m := PUT m (p + 10) (bits w.mouse.xy.y)
    some (PUT m (p + 14) (bits w.mouse.buttons))
  | .tmoveto =>
    let m := PUT m (p + 6) (bits w.mouse.xy.x)
    some (PUT m (p + 10) (bits w.mouse.xy.y))
  | .tcursor =>
    let m := PUT m (p + 6) (bits w.cursor.offset.x)
    let m := PUT m (p + 10) (bits w.cursor.offset.y)
    let m := patch m (p + 14) w.cursor.clr.toList
    let m := patch m (p + 46) w.cursor.set.toList
    some (patch m (p + 78) [toUchar w.arrowcursor])
  | .tcursor2 =>
    let m := PUT m (p + 6) (bits w.cursor.offset.x)
    let m := PUT m (p + 10) (bits w.cursor.offset.y)
    let m := patch m (p + 14) w.cursor.clr.toList
    let m := patch m (p + 46) w.cursor.set.toList
    let m := PUT m (p + 78) (bits w.cursor2.offset.x)
    let m := PUT m (p + 82) (bits w.cursor2.offset.y)
    let m := patch m (p + 86) w.cursor2.clr.toList
    let m := patch m (p + 214) w.cursor2.set.toList
    some (patch m (p + 342) [toUchar w.arrowcursor])
  | .rrdkbd => some (PUT2 m (p + 6) w.rune.toNat)
  | .rrdkbd4 => some (PUT m (p + 6) w.rune.toNat)
  | .tlabel => (PUTSTRING m (p + 6) w.label).map Prod.snd
  | .tctxt => (PUTSTRING m (p + 6) w.id).map Prod.snd
  | .tinit => do
    let p := p + 6
    let (n, m) ← PUTSTRING m p w.winsize
    let p := p + n
    let (_, m) ← PUTSTRING m p w.label
    pure m
  | .rrdsnarf | .twrsnarf => (PUTSTRING m (p + 6) w.snarf).map Prod.snd
  | .rrddraw | .twrdraw =>
    let m := PUT m (p + 6) w.count.toNat
    some (memmove m (p + 10) w.data w.count.toNat)
  | .trddraw | .rwrdraw => some (PUT m (p + 6) w.count.toNat)
  | .tresize =>
    let m := PUT m (p + 6) (bits w.rect.min.x)
    let m := PUT m (p + 10) (bits w.rect.min.y)
    let m := PUT m (p + 14) (bits w.rect.max.x)
    some (PUT m (p + 18) (bits w.rect.max.y))

/-- The value returned, and the memory with the message stored at `p`. -/
def convW2M (m : Mem) (w : Wsysmsg) (p n : Nat) : Option (Nat × Mem) := do
  let nn ← sizeW2M m w
  if n < nn ∨ nn = 0 ∨ n < 6 then return (0, m)
  let m := PUT m p nn
  let m := patch m (p + 4) [w.tag]
  let m := patch m (p + 5) [w.type]
  match WsysType.ofCode w.type with
  | none => pure (0, m)
  | some t => (bodyW2M m w p t).map fun m => (nn, m)

/-- `memmove` into an array of the message. -/
def getBytes (m : Mem) (p n : Nat) : Vector UInt8 n :=
  Vector.ofFn fun i => m[p + i.val]?.getD 0

/-- The switch of `convM2W`. -/
def bodyM2W (m : Mem) (p : Nat) (w : Wsysmsg) : WsysType → Option (Wsysmsg × Mem)
  | .trdmouse | .rbouncemouse | .rmoveto | .rcursor | .rcursor2 | .trdkbd | .trdkbd4 | .rlabel
  | .rctxt | .rinit | .trdsnarf | .rwrsnarf | .ttop | .rtop | .rresize => some (w, m)
  | .rerror => (GETSTRING m (p + 6)).map fun (_, s, m) => ({ w with error := s }, m)
  | .rrdmouse =>
    some ({ w with
      mouse := ⟨toInt (GET m (p + 14)), ⟨toInt (GET m (p + 6)), toInt (GET m (p + 10))⟩,
        .ofNat (GET m (p + 18))⟩
      resized := toInt (byte m (p + 19)) }, m)
  | .tbouncemouse =>
    some ({ w with
      mouse.xy := ⟨toInt (GET m (p + 6)), toInt (GET m (p + 10))⟩
      mouse.buttons := toInt (GET m (p + 14)) }, m)
  | .tmoveto =>
    some ({ w with mouse.xy := ⟨toInt (GET m (p + 6)), toInt (GET m (p + 10))⟩ }, m)
  | .tcursor =>
    some ({ w with
      cursor := ⟨⟨toInt (GET m (p + 6)), toInt (GET m (p + 10))⟩, getBytes m (p + 14) _,
        getBytes m (p + 46) _⟩
      arrowcursor := toInt (byte m (p + 78)) }, m)
  | .tcursor2 =>
    some ({ w with
      cursor := ⟨⟨toInt (GET m (p + 6)), toInt (GET m (p + 10))⟩, getBytes m (p + 14) _,
        getBytes m (p + 46) _⟩
      cursor2 := ⟨⟨toInt (GET m (p + 78)), toInt (GET m (p + 82))⟩, getBytes m (p + 86) _,
        getBytes m (p + 214) _⟩
      arrowcursor := toInt (byte m (p + 342)) }, m)
  | .rrdkbd => some ({ w with rune := .ofNat (GET2 m (p + 6)) }, m)
  | .rrdkbd4 => some ({ w with rune := .ofNat (GET m (p + 6)) }, m)
  | .tlabel => (GETSTRING m (p + 6)).map fun (_, s, m) => ({ w with label := s }, m)
  | .tctxt => (GETSTRING m (p + 6)).map fun (_, s, m) => ({ w with id := s }, m)
  | .tinit => do
    let p := p + 6
    let (n, winsize, m) ← GETSTRING m p
    let p := p + n
    let (_, label, m) ← GETSTRING m p
    pure ({ w with winsize := winsize, label := label }, m)
  | .rrdsnarf | .twrsnarf => (GETSTRING m (p + 6)).map fun (_, s, m) => ({ w with snarf := s }, m)
  | .rrddraw | .twrdraw =>
    some ({ w with count := .ofNat (GET m (p + 6)), data := p + 10 }, m)
  | .trddraw | .rwrdraw => some ({ w with count := .ofNat (GET m (p + 6)) }, m)
  | .tresize =>
    some ({ w with
      rect := ⟨⟨toInt (GET m (p + 6)), toInt (GET m (p + 10))⟩,
        ⟨toInt (GET m (p + 14)), toInt (GET m (p + 18))⟩⟩ }, m)

/-- The value returned, the message, and the memory with the strings moved down. -/
def convM2W (m : Mem) (p n : Nat) (w : Wsysmsg) : Option (Nat × Wsysmsg × Mem) :=
  if n < 6 then some (0, w, m)
  else
    let nn := GET m p
    if nn > n then some (0, w, m)
    else
      let w := { w with tag := .ofNat (byte m (p + 4)), type := .ofNat (byte m (p + 5)) }
      match WsysType.ofCode w.type with
      | none => some (0, w, m)
      | some t => (bodyM2W m p w t).map fun (w, m) => (nn, w, m)

end Plan9Port.Draw
