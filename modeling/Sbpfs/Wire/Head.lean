import Mathlib.Data.UInt
import Sbpfs.Lib.Program
import Sbpfs.Lib.Search

/-!
# Message heads in C and in Python

A head is a title line and lines `name: value`, ended by an empty line. `make_head` and
`decode_head` are the C side, `gen_head` and `parse_head` the Python side. The C decoder
works in one buffer: it ends the strings it finds by writing NUL bytes over the
separators and keeps pointers to them.
-/
namespace Sbpfs.Wire.Head

open Sbpfs.Lib.Program Sbpfs.Lib.Search

abbrev Str := List UInt8

/-- The bytes of an ASCII text. -/
def ascii (s : String) : Str := s.toList.map fun c => UInt8.ofNat c.toNat

def crlf : Str := [0x0d, 0x0a]

/-- The separator `": "`. -/
def colon : Str := [0x3a, 0x20]

/-- `HEADER_FLAG`. -/
def headerFlag : Str := [0x0d, 0x0a, 0x0d, 0x0a]

@[simp] abbrev MAX_ENTRY_IN_HEAD : Nat := 32

structure HeadEntry where
  name : Str
  value : Str
  deriving DecidableEq, Repr

/-! ## C -/

/-- The C string at position `p` of a buffer. -/
def cstr (b : Str) (p : Nat) : Str := (b.drop p).takeWhile (· ≠ 0)

/-- `strstr(b + p, pat)` as a position in the buffer. -/
def strstr (b : Str) (p : Nat) (pat : Str) : Option Nat := (find pat (cstr b p)).map (p + ·)

/-- The bytes of one entry on the wire. -/
def entryLine (e : HeadEntry) : Str := e.name ++ colon ++ e.value

def entryLines (entrys : List HeadEntry) : Str := entrys.flatMap fun e => entryLine e ++ crlf

/-- `make_head`, `none` for -1. -/
def makeHead (title : Str) (entrys : List HeadEntry) : Option Str :=
  if entrys.length > MAX_ENTRY_IN_HEAD then none
  else some (title ++ crlf ++ entryLines entrys ++ crlf)

/-- `struct sbpfs_head` after decoding: the buffer and the pointers into it. -/
structure SbpfsHead where
  headLen : Nat
  data : Str
  entrys : List (Nat × Nat)
  deriving DecidableEq

/-- `head->title`. -/
def SbpfsHead.title (h : SbpfsHead) : Str := cstr h.data 0

/-- The entries as the strings their pointers lead to. -/
def SbpfsHead.strings (h : SbpfsHead) : List HeadEntry :=
  h.entrys.map fun p => ⟨cstr h.data p.1, cstr h.data p.2⟩

/-- The loop of `decode_head` at `prev_ptr`. The array of entries is not checked for room. -/
def decodeLoop : Nat → Str → Nat → List (Nat × Nat) → Except Stop (Option (Str × List (Nat × Nat)))
  | 0, _, _, _ => .error .hang
  | n + 1, data, prev, entrys =>
    match strstr data prev crlf with
    | none => .ok none
    | some next =>
      if next = prev then .ok (some (data, entrys))
      else if entrys.length < MAX_ENTRY_IN_HEAD then
        let data := data.set next 0
        match strstr data prev colon with
        | none => .ok none
        | some p => decodeLoop n (data.set p 0) (next + 2) (entrys ++ [(prev, p + 2)])
      else .error .fault

/-- `decode_head`, `none` for -1; `mem` tells whether its allocation succeeds. -/
def decodeHead (mem : Bool) (data : Str) : Except Stop (Option SbpfsHead) :=
  match strstr data 0 headerFlag with
  | none => .ok none
  | some headerEnd =>
    if mem then
      let headLen := headerEnd + headerFlag.length
      let buf := data.take headLen ++ [0]
      match strstr buf 0 crlf with
      | none => .ok none
      | some p => do
        match ← decodeLoop buf.length (buf.set p 0) (p + 2) [] with
        | none => return none
        | some (buf, entrys) => return some ⟨headLen, buf, entrys⟩
    else .ok none

/-- The value of the first entry of the name. -/
def valueOf (entrys : List HeadEntry) (entry : Str) : Option Str :=
  (entrys.find? fun e => e.name = entry).map HeadEntry.value

/-- `get_head_entry_value`. -/
def getHeadEntryValue (h : SbpfsHead) (entry : Str) : Option Str := valueOf h.strings entry

/-! ## Python -/

/-- A dictionary of fields, in the order in which they were entered. -/
abbrev Dict := List (Str × Str)

def Dict.hasKey (d : Dict) (key : Str) : Bool := d.any fun f => f.1 = key

def Dict.get (d : Dict) (key : Str) : Option Str := (d.find? fun f => f.1 = key).map Prod.snd

def genHead (fl : Str) (d : Dict) : Str :=
  List.intercalate crlf (fl :: d.map (fun f => f.1 ++ colon ++ f.2) ++ [crlf])

def isSpace (c : UInt8) : Bool := c = 0x20 || (0x09 ≤ c && c ≤ 0x0d)

/-- `s.split()`. -/
def words (s : Str) : List Str := (s.splitOnP isSpace).filter (· ≠ [])

/-- One round of the loop of `parse_head`; a line of one piece does no harm when its text is
a key already. -/
def parseLine (d : Dict) (line : Str) : Option Dict :=
  match splitN colon 1 line with
  | [] => none
  | [key] => if d.hasKey key then some d else none
  | key :: value :: _ => if d.hasKey key then some d else some (d ++ [(key, value)])

def parseHead (s : Str) : Option Dict :=
  match split crlf s with
  | [] => none
  | first :: lines =>
    match words first with
    | [] => none
    | [protocol] => lines.foldlM parseLine [(ascii "Protocol", protocol)]
    | protocol :: response :: _ =>
      lines.foldlM parseLine [(ascii "Protocol", protocol), (ascii "Response", response)]

end Sbpfs.Wire.Head
