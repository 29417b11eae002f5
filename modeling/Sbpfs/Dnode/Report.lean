import Sbpfs.Lib.Pack
import Sbpfs.Dnode.BlockList

/-!
# The report of a data node

The start of a data node, up to the loop that accepts connections: the list file is read, and its
numbers go to the control node behind a head. A `send` that takes less than all of its bytes has
failed, and nothing is sent after it.
-/
namespace Sbpfs.Dnode.Report

open Sbpfs.Lib.Program Sbpfs.Lib.Memory Sbpfs.Lib.Pack
open Sbpfs.Cfs.Layout (s32 u64OfInt)
open Sbpfs.Wire.Head Sbpfs.Wire.Number Sbpfs.Libc.Request
open Sbpfs.Libc.Table (REQUEST_OK)
open Sbpfs.Dnode.Blockman Sbpfs.Dnode.Serve Sbpfs.Dnode.BlockSpec Sbpfs.Dnode.ListSpec

/-! ## Sending -/

/-- The process, and the bytes that have gone into its connection to the control node. -/
structure Link where
  node : DNode
  out : Str

abbrev LM (α : Type) := Prog Link α

def atNode {α : Type} (m : DM α) : LM α := focus Link.node (fun d c => { c with node := d }) m

/-- `sbp_send`, `false` for -1. A `send` that fails may have taken the first `cut` bytes, but never
all of them. -/
def sbpSend (cut : Nat) (data : Str) : LM Bool := do
  if ← atNode nextSend then
    modify fun c => { c with out := c.out ++ data }
    return true
  else
    modify fun c => { c with out := c.out ++ data.take (min cut (data.length - 1)) }
    return false

/-- What `send_list` and `send_success` have in common; `true` if they get to `get_reply`. The head
is made in allocated memory. -/
def sendNumbers (cut : Nat) (dname cLen blockNumS : Str) (numbers : DM Str) : LM Bool := do
  let dnodename ← atNode (sprintf 38 (ascii "DNode_" ++ dname))
  match makeHead PROTOCOL [⟨CONTENT_LEN, cLen⟩, ⟨USER, dnodename⟩,
    ⟨ascii "BlockNum", blockNumS⟩] with
  | none => return false
  | some headData =>
    if ← atNode nextMalloc then
      if ← sbpSend cut headData then
        let data ← atNode numbers
        sbpSend cut data
      else return false
    else return false

/-- The first `bnum * 8` bytes of `blolist`, which has room for `MAX_BLOCKSIZE` numbers. -/
def blolistBytes : DM Str := do
  let d ← get
  let len := (d.bnum * 8).toNat
  if len ≤ MAX_BLOCKSIZE * 8 then
    return (List.range (len / 8)).flatMap fun i => toLE 8 (d.blolist i).toNat
  else fault

def sendList (cut : Nat) (dname : Str) : LM Bool := do
  let blnum ← atNode getlist
  let blockNumS ← atNode (sprintf 32 (decimal 0 (s64 blnum.toNat)))
  let cLen ← atNode (sprintf 32 (decimal 0 (s64 (blnum * 8).toNat)))
  sendNumbers cut dname cLen blockNumS blolistBytes

/-- `send_success`, which nothing calls: the call behind a write is commented out. -/
def sendSuccess (cut : Nat) (dname : Str) (blocknum : UInt64) : LM Bool :=
  sendNumbers cut dname (ascii "8") (ascii "1") (return toLE 8 blocknum.toNat)

/-- `get_reply` with what `sbp_recv` has received, `none` for its -1; `false` for -1. -/
def getReply (mem : Bool) (received : Option Str) : Except Stop Bool :=
  match received with
  | none => .ok false
  | some recBuf =>
    if cstr recBuf 0 = [] then .ok false
    else (decodeHead mem recBuf).map fun head => head.any fun head => head.title = REQUEST_OK

/-- `main` up to the loop. -/
def start (cut : Nat) (dname : Str) : LM Bool := do
  atNode initlist
  sendList cut dname

/-! ## What is sent -/

/-- The entries of a report of `n` numbers. -/
def listEntries (dname : Str) (n : Nat) : List HeadEntry :=
  [⟨CONTENT_LEN, decimal 0 ((8 * n : Nat) : Int)⟩, ⟨USER, ascii "DNode_" ++ dname⟩,
    ⟨ascii "BlockNum", decimal 0 (n : Int)⟩]

def listHead (dname : Str) (n : Nat) : Str :=
  PROTOCOL ++ crlf ++ entryLines (listEntries dname n) ++ crlf

def numberBytes (numbers : List UInt64) : Str := numbers.flatMap fun b => toLE 8 b.toNat

def listMessage (dname : Str) (numbers : List UInt64) : Str :=
  listHead dname numbers.length ++ numberBytes numbers

section Sending

variable {d : DNode} {c : Link} {dname : Str}

theorem atNode_run {α : Type} {m : DM α} {a : α} (h : m c.node = .ok (a, d)) :
    atNode m c = .ok (a, { c with node := d }) := focus_run h

/-- Where a text is printed into an array that has room for it. -/
theorem atNode_sprintf {size : Nat} {text : Str} (h : text.length + 1 ≤ size) :
    atNode (sprintf size text) c = .ok (text, c) :=
  atNode_run (sprintf_run (Nat.le_add_right_of_le h))

/-- A `send` takes all bytes, or it has failed and not all are taken. -/
theorem sbpSend_run (cut : Nat) (data : Str) (c : Link) : ∃ r c' k,
    sbpSend cut data c = .ok (r, c') ∧ c'.out = c.out ++ data.take k ∧ Used c.node c'.node ∧
      (r = true → data.length ≤ k) := by
  unfold sbpSend
  rw [bind_run (atNode_run (nextSend_run c.node))]
  cases c.node.env.sends 0 with
  | true =>
    refine ⟨true, ⟨spent c.node, c.out ++ data⟩, data.length, rfl, ?_, used_spent _,
      fun _ => Nat.le_refl _⟩
    rw [List.take_length]
  | false =>
    exact ⟨false, ⟨spent c.node, c.out ++ data.take (min cut (data.length - 1))⟩, _, rfl, rfl,
      used_spent _, fun h => absurd h (by decide)⟩

theorem length_userEntry (h : dname.length < 32) : (ascii "DNode_" ++ dname).length + 1 ≤ 38 := by
  rw [List.length_append]
  have hprefix : (ascii "DNode_").length = 6 := by decide
  omega

/-- A head, and the numbers behind it if the head has gone out. -/
theorem sendNumbers_run (cut : Nat) {numbers : List UInt64} {m : DM Str} (hname : dname.length < 32)
    (hm : ∀ d', Used c.node d' → m d' = .ok (numberBytes numbers, d')) :
    ∃ r c', sendNumbers cut dname (decimal 0 ((8 * numbers.length : Nat) : Int))
        (decimal 0 (numbers.length : Int)) m c = .ok (r, c') ∧ Used c.node c'.node ∧
      ∃ k, c'.out = c.out ++ (listMessage dname numbers).take k ∧
        (r = true → (listMessage dname numbers).length ≤ k) := by
  have hhead : makeHead PROTOCOL [⟨CONTENT_LEN, decimal 0 ((8 * numbers.length : Nat) : Int)⟩,
      ⟨USER, ascii "DNode_" ++ dname⟩, ⟨ascii "BlockNum", decimal 0 (numbers.length : Int)⟩]
        = some (listHead dname numbers.length) := rfl
  unfold sendNumbers
  rw [bind_run (atNode_sprintf (length_userEntry hname)), hhead]
  dsimp only
  rw [bind_run (atNode_run (nextMalloc_run c.node))]
  cases c.node.env.mallocs 0 with
  | false =>
    refine ⟨false, ⟨malloced c.node, c.out⟩, rfl, used_malloced _, 0, ?_, fun h => ?_⟩
    · rw [List.take_zero, List.append_nil]
    · cases h
  | true =>
  obtain ⟨r, c₁, k, hfirst, hout, honly, hall⟩ :=
    sbpSend_run cut (listHead dname numbers.length) ⟨malloced c.node, c.out⟩
  have hused : Used c.node c₁.node := (used_malloced _).trans honly
  rw [if_pos rfl, bind_run hfirst]
  cases r with
  | false =>
    refine ⟨false, c₁, rfl, hused, min k (listHead dname numbers.length).length, ?_, fun h => ?_⟩
    · rw [hout, listMessage, List.take_append_of_le_length (Nat.min_le_right _ _)]
      congr 1
      rw [← List.take_take, List.take_length]
    · cases h
  | true =>
    obtain ⟨r', c₂, k', hsecond, hout', honly', hall'⟩ := sbpSend_run cut (numberBytes numbers) c₁
    refine ⟨r', c₂, ?_, hused.trans honly', (listHead dname numbers.length).length + k', ?_, ?_⟩
    · rw [if_pos rfl, bind_run (atNode_run (hm _ hused))]
      exact hsecond
    · rw [hout', hout, List.take_of_length_le (hall rfl), listMessage, List.take_length_add_append,
        List.append_assoc]
    · intro hr
      rw [listMessage, List.length_append]
      exact Nat.add_le_add_left (hall' hr) _

end Sending

/-! ## Reading the list again -/

section Restored

variable {d : DNode} {f : File} {n : Nat} {num : Nat → UInt64}

/-- The bytes of the table. -/
theorem blolistBytes_run (h : Listing d n num) (hfilled : Filled d num n) :
    blolistBytes d = .ok (numberBytes ((List.range n).map num), d) := by
  have hfits := h.fits
  simp only [BLOCKNAME] at hfits
  have hlen : (d.bnum * 8).toNat = n * 8 := by
    have hmul : (d.bnum * 8).toNat = d.bnum.toNat * 8 % 2 ^ 64 := UInt64.toNat_mul ..
    rw [hmul, h.count]
    omega
  have hbytes : ((List.range n).flatMap fun i => toLE 8 (d.blolist i).toNat)
      = numberBytes ((List.range n).map num) := by
    unfold numberBytes
    rw [List.flatMap_map]
    refine List.flatMap_congr fun i hi => ?_
    rw [hfilled.table i (List.mem_range.mp hi)]
  unfold blolistBytes
  rw [bind_run (show (get : DM DNode) d = .ok (d, d) from rfl), hlen,
    if_pos (by simp only [MAX_BLOCKSIZE]; omega), Nat.mul_div_cancel n (by decide), hbytes]
  rfl

/-! ## The start of a node -/

variable {dname : Str}

/-- The numbers of a list. -/
def numbersOf (n : Nat) (num : Nat → UInt64) : List UInt64 := (List.range n).map num

theorem length_numbersOf (n : Nat) (num : Nat → UInt64) : (numbersOf n num).length = n := by
  unfold numbersOf
  rw [List.length_map, List.length_range]

/-- What has gone into a connection when the list of `num` was to be sent: a front part of the
message, and all of it where every `send` has gone well. -/
structure Sent (dname : Str) (numbers : List UInt64) (r : Bool) (out : Str) : Prop where
  front : out <+: listMessage dname numbers
  whole : r = true → out = listMessage dname numbers

theorem sendList_run (cut : Nat) (h : OnFile d n num) (ho : d.env.opens 0 = true)
    (hname : dname.length < 32) :
    ∃ r c', sendList cut dname ⟨d, []⟩ = .ok (r, c') ∧ Listing c'.node n num ∧
      Sent dname (numbersOf n num) r c'.out := by
  obtain ⟨d', hget, hlisting, hfilled, -, -⟩ := getlist_restores h ho
  have hfits := h.fits
  simp only [BLOCKNAME] at hfits
  have hlen := length_numbersOf n num
  have hcount : s64 d'.bnum.toNat = (n : Int) := by
    rw [hlisting.count]
    unfold s64
    split <;> omega
  have hbytes : s64 (d'.bnum * 8).toNat = ((8 * n : Nat) : Int) := by
    have hmul : (d'.bnum * 8).toNat = d'.bnum.toNat * 8 % 2 ^ 64 := UInt64.toNat_mul ..
    rw [hmul, hlisting.count]
    unfold s64
    split <;> omega
  have hshort : ∀ m : Nat, m ≤ 8 * n → (decimal 0 (m : Int)).length + 1 ≤ 32 := by
    intro m hm
    rw [decimal_nat]
    have := numeral_length (n := m) (k := 3) (by decide) (by omega)
    omega
  have hnumbers : ∀ e, Used d' e → blolistBytes e = .ok (numberBytes (numbersOf n num), e) := by
    rintro e ⟨j, k, rfl⟩
    exact blolistBytes_run (hlisting.frame rfl rfl rfl) ⟨hfilled.rows, hfilled.table⟩
  obtain ⟨r, c', hrun, ⟨i, j, honly⟩, k, hout, hall⟩ :=
    @sendNumbers_run ⟨d', []⟩ _ cut _ _ hname hnumbers
  refine ⟨r, c', ?_, ?_, ?_, fun hr => ?_⟩
  · unfold sendList
    rw [bind_run (atNode_run hget),
      bind_run (atNode_sprintf (by rw [hcount]; exact hshort n (by omega))),
      bind_run (atNode_sprintf (by rw [hbytes]; exact hshort (8 * n) (Nat.le_refl _))),
        hcount, hbytes]
    rw [hlen] at hrun
    exact hrun
  · rw [honly]
    exact hlisting.frame rfl rfl rfl
  · rw [hout]
    exact List.take_prefix k _
  · rw [hout, List.nil_append, List.take_of_length_le (hall hr)]

/-- A node that is started again reads the list twice. -/
theorem start_run (cut : Nat) (h : OnFile d n num)
    (ho : d.env.opens 0 = true ∧ d.env.opens 1 = true)
    (hname : dname.length < 32) :
    ∃ r c', start cut dname ⟨d, []⟩ = .ok (r, c') ∧ Listing c'.node n num ∧
      Sent dname (numbersOf n num) r c'.out := by
  obtain ⟨f, hf, -⟩ := h.file
  obtain ⟨d', hget, -, -, hfiles, henv⟩ := getlist_restores h ho.1
  have hinit : initlist d = .ok ((), d') := by
    unfold initlist
    rw [bind_run (show (get : DM DNode) d = .ok (d, d) from rfl), hf,
      if_pos (show (some f).isSome = true from rfl), bind_run hget]
    rfl
  have hopens : d'.env.opens 0 = true := by
    rw [henv]
    exact ho.2
  obtain ⟨r, c', hrun, hrest⟩ := sendList_run cut (h.files hfiles) hopens hname
  refine ⟨r, c', ?_, hrest⟩
  unfold start
  rw [bind_run (atNode_run hinit)]
  exact hrun

/-- A block that was made is reported alone. -/
theorem sendSuccess_run (cut : Nat) (b : UInt64) (hname : dname.length < 32) :
    ∃ r c', sendSuccess cut dname b ⟨d, []⟩ = .ok (r, c') ∧ Used d c'.node ∧
      Sent dname [b] r c'.out := by
  have hone : ∀ e, Used d e → (return toLE 8 b.toNat : DM Str) e = .ok (numberBytes [b], e) := by
    intro e _
    unfold numberBytes
    rw [List.flatMap_cons, List.flatMap_nil, List.append_nil]
    rfl
  obtain ⟨r, c', hrun, honly, k, hout, hall⟩ := @sendNumbers_run ⟨d, []⟩ _ cut _ _ hname hone
  refine ⟨r, c', hrun, honly, ?_, fun hr => ?_⟩
  · rw [hout]
    exact List.take_prefix k _
  · rw [hout, List.nil_append, List.take_of_length_le (hall hr)]

end Restored

end Sbpfs.Dnode.Report
