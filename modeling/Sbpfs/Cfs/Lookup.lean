import Sbpfs.Cfs.File

/-! Names, directory tables, path walking and permission checks. -/
namespace Sbpfs.Cfs.Lookup

open Sbpfs.Lib.Program Sbpfs.Lib.Memory Sbpfs.Cfs.Layout Sbpfs.Cfs.File

abbrev R : UInt8 := 0x2
abbrev W : UInt8 := 0x1

def permissionCheck (uid : UInt32) (fmeta : Bytes) (op : UInt8) : UInt8 :=
  let oid := metaUid fmeta
  let fmode := metaFlags fmeta &&& S_ALL
  let uid := if uid.toNat = 0 then oid else uid.toNat
  if uid = oid ∧ op = R then fmode &&& S_IRD
  else if uid = oid ∧ op = W then fmode &&& S_IWR
  else if uid ≠ oid ∧ op = R then fmode &&& S_ORD
  else if uid ≠ oid ∧ op = W then fmode &&& S_OWR
  else 0

def ownCheck (uid : UInt32) (oid : Nat) : Bool := uid.toNat = 0 || uid.toNat = oid

/-- The parts before and after the last `/`. -/
def splitLast : CStr → Option (CStr × CStr)
  | [] => none
  | c :: cs =>
    match splitLast cs with
    | some (pre, name) => some (c :: pre, name)
    | none => if c = slash then some ([], cs) else none

/-- A final `/` is cut off first; the value is the cut path and the name behind its last
`/`, `none` for NULL. -/
def getFilenameFromPath (path : CStr) : Option (CStr × CStr) :=
  splitLast (if path.getLast? = some slash then path.dropLast else path)

/-- The parts before and after the first `/`. -/
def splitFirst : CStr → Option (CStr × CStr)
  | [] => none
  | c :: cs =>
    if c = slash then some ([], cs)
    else (splitFirst cs).map fun p => (c :: p.1, p.2)

/-- The loop of `find_entry_by_name` from entry `i` on. The pointer is compared with the
end by `!=`, so a table that is not a whole number of entries is left behind. -/
def findEntryFrom (pdata : Bytes) (name : CStr) : Nat → Nat → CM (Option Nat)
  | 0, i => if entrySize * i = metaStrbase pdata then return none else fault
  | n + 1, i =>
    if entrySize * i = metaStrbase pdata then return none
    else if strEq pdata (metaSize + metaStrbase pdata + entryName pdata (entryOff i)) name then
      return some i
    else findEntryFrom pdata name n (i + 1)

/-- The index of the entry of that name. -/
def findEntryByName (pdata : Bytes) (name : CStr) : CM (Option Nat) :=
  findEntryFrom pdata name (metaStrbase pdata / entrySize) 0

/-- `fuel` bounds the recursion, which drops a component of the path each time. -/
def cFindEntry : Nat → Nat → CStr → CM (Except Int FileEntry)
  | 0, _, _ => hang
  | n + 1, base, path => do
    let fmeta ← readSector base
    match ← malloc .lookup (u32 (metaBlocks fmeta * BYTSPERSEC)) with
    | none => return .error (-9)
    | some buf =>
      let buf ← doReadfile base buf
      match splitFirst path with
      | none =>
        match ← findEntryByName buf.bytes path with
        | none => return .error 1
        | some p => return .ok (entryAt buf.bytes (entryOff p))
      | some (nextBase, path) =>
        match ← findEntryByName buf.bytes nextBase with
        | none => return .error 1
        | some p =>
          if entryType buf.bytes (entryOff p) = S_DIR then
            cFindEntry n (entryFb buf.bytes (entryOff p)) path
          else return .error 1

/-- The caller's uid is handed along by the source and never looked at. -/
def cLookup (path : CStr) : CM (Except Int FileEntry) := do
  let path := if path.head? = some slash then path.tail else path
  let root ← readSector 0
  if path = [] then return .ok (entryAt root 0)
  else cFindEntry (path.length + 1) (entryFb root 0) path

end Sbpfs.Cfs.Lookup
