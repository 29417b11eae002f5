import Sbpfs.Cnode.Connection

/-!
# A message in pieces

`Connection.__readmsg` calls `recv` until the end of the head is there and then until the body
is. Only the second loop cuts what it takes to the declared length, so the message comes out
right just when a piece ends behind its head and not behind its body.
-/
namespace Sbpfs.Cnode.Connection

open Sbpfs.Lib.Search Sbpfs.Wire.Head Sbpfs.Wire.Number Sbpfs.Cnode.Message

/-! ## The two loops -/

/-- What `recv` returns at most. -/
@[simp] abbrev RECV_MAX : Nat := 1024

/-- The loop for the head over what the next calls of `recv` return, with the calls that are
left. A connection that is closed returns nothing. -/
def readHead (buffer : Str) (chunks : List Str) : Option (Str × List Str) :=
  if (find headerFlag buffer).isSome then some (buffer, chunks)
  else
    match chunks with
    | [] => none
    | s :: chunks => if s = [] then none else readHead (buffer ++ s) chunks

/-- The loop for the body. -/
def readBody (conlen : Int) (data : Str) (chunks : List Str) : Option Str :=
  if (data.length : Int) < conlen then
    match chunks with
    | [] => none
    | s :: chunks =>
      if s = [] then none
      else if conlen < data.length + s.length then
        readBody conlen (data ++ s.take (conlen - data.length).toNat) chunks
      else readBody conlen (data ++ s) chunks
  else some data

/-- `Connection.__readmsg` with its calls of `recv`. -/
def readmsgFrom (chunks : List Str) : Except Refusal (Dict × Str) :=
  match readHead [] chunks with
  | none => .error .closed
  | some (buffer, chunks) =>
    let data := (splitMessage buffer).2
    match readFields buffer with
    | none => .error (.senderr (ascii "SyntaxError") (ascii "Head error"))
    | some d =>
      let protocol := (d.get (ascii "Protocol")).getD []
      if protocol ≠ VERSION then
        .error (.senderr (ascii "ProtocolError") (ascii "Unknown Protocal: " ++ protocol))
      else
        match d.get (ascii "Content-Length") with
        | some length =>
          match pyInt length with
          | none =>
            .error (.senderr (ascii "TypeError") (ascii "Expect Content-Length to be an integer"))
          | some conlen =>
            match readBody conlen data chunks with
            | none => .error .closed
            | some data => .ok (d, data)
        | none => if data = [] then .ok (d, data) else .error .assertion

variable {chunks rest : List Str} {buffer head body after data length : Str} {d : Dict} {n : Nat}

/-- What the loop for the body makes of what it has and of what comes. -/
theorem readBody_eq {conlen : Int} (hne : ∀ s ∈ chunks, s ≠ []) :
    readBody conlen data chunks
      = if (data.length : Int) < conlen then
          if ((data ++ chunks.flatten).length : Int) < conlen then none
          else some ((data ++ chunks.flatten).take conlen.toNat)
        else some data := by
  induction chunks generalizing data with
  | nil =>
    unfold readBody
    by_cases hlt : (data.length : Int) < conlen
    · simp [hlt]
    · simp [hlt]
  | cons s chunks ih =>
    have hs : s ≠ [] := hne s (List.mem_cons_self ..)
    have hrest : ∀ t ∈ chunks, t ≠ [] := fun t ht => hne t (List.mem_cons_of_mem _ ht)
    unfold readBody
    by_cases hlt : (data.length : Int) < conlen
    · simp only [if_pos hlt, if_neg hs, List.flatten_cons]
      by_cases hcut : conlen < data.length + s.length
      · have hlen : (s.take (conlen - data.length).toNat).length
          = (conlen - data.length).toNat := by
          rw [List.length_take]
          omega
        have hdone : ¬ ((data ++ s.take (conlen - data.length).toNat).length : Int) < conlen := by
          rw [List.length_append, hlen]
          omega
        have hall : ¬ ((data ++ (s ++ chunks.flatten)).length : Int) < conlen := by
          simp only [List.length_append]
          omega
        have htake : (data ++ (s ++ chunks.flatten)).take conlen.toNat
            = data ++ s.take (conlen - data.length).toNat := by
          have hrem : conlen.toNat - data.length = (conlen - data.length).toNat := by omega
          rw [List.take_append, List.take_of_length_le (by omega), hrem,
            List.take_append_of_le_length (by omega)]
        rw [if_pos hcut, ih hrest, if_neg hdone, if_neg hall, htake]
      · rw [if_neg hcut, ih hrest, List.append_assoc]
        by_cases hless : ((data ++ s).length : Int) < conlen
        · rw [if_pos hless]
        · have hexact : conlen = (data ++ s).length := by
            rw [List.length_append] at hless ⊢
            omega
          have hall : ¬ ((data ++ (s ++ chunks.flatten)).length : Int) < conlen := by
            rw [hexact]
            simp only [List.length_append]
            omega
          have htake : (data ++ (s ++ chunks.flatten)).take conlen.toNat = data ++ s := by
            rw [hexact, ← List.append_assoc]
            exact List.take_left
          rw [if_neg hless, if_neg hall, htake]
    · simp [hlt]

/-- From the end of the head on, only the bytes that come count and not how they are cut. -/
theorem readmsgFrom_eq (hne : ∀ s ∈ rest, s ≠ []) (h : readHead [] chunks = some (buffer, rest)) :
    readmsgFrom chunks = readmsg buffer rest.flatten := by
  unfold readmsgFrom readmsg
  rw [h]
  dsimp only
  cases readFields buffer with
  | none => rfl
  | some d =>
    dsimp only
    split
    · rfl
    · cases d.get (ascii "Content-Length") with
      | none => rfl
      | some length =>
        dsimp only
        cases pyInt length with
        | none => rfl
        | some conlen =>
          dsimp only
          rw [readBody_eq hne]
          by_cases hless : ((splitMessage buffer).2.length : Int) < conlen
          · rw [if_pos hless, if_pos hless]
            by_cases hshort : (((splitMessage buffer).2 ++ rest.flatten).length : Int) < conlen
            · rw [if_pos hshort, if_pos hshort]
            · rw [if_neg hshort, if_neg hshort]
          · rw [if_neg hless, if_neg hless]

/-! ## Where the end of the head shows up -/

/-- The end of the head is in the first bytes of a stream just when they reach to it. -/
theorem find_flag_iff {stream p t : Str} {i : Nat} (hfind : find headerFlag stream = some i)
    (hcut : stream = p ++ t) :
    (find headerFlag p).isSome = true ↔ i + headerFlag.length ≤ p.length := by
  constructor
  · intro h
    obtain ⟨j, hj⟩ := Option.isSome_iff_exists.mp h
    have hlong := find_append_right hj t
    rw [← hcut, hfind] at hlong
    cases hlong
    exact find_length hj
  · intro hle
    have hstream := find_eq hfind
    have hpre : stream.take i ++ headerFlag <+: p := by
      have hwhole : stream.take i ++ headerFlag <+: stream := ⟨_, hstream.symm⟩
      refine List.prefix_of_prefix_length_le hwhole ⟨t, hcut.symm⟩ ?_
      rw [List.length_append, List.length_take]
      omega
    obtain ⟨u, rfl⟩ := hpre
    refine Option.isSome_iff_ne_none.mpr fun hnone => ?_
    exact (find_eq_none (by decide)).mp hnone ⟨stream.take i, u, rfl⟩

/-- The first loop stops behind the first piece that reaches the end of the head. -/
theorem readHead_of_find {stream : Str} {i : Nat} (hfind : find headerFlag stream = some i)
    (hcut : stream = buffer ++ chunks.flatten) (hne : ∀ s ∈ chunks, s ≠ []) :
    ∃ k, readHead buffer chunks = some (buffer ++ (chunks.take k).flatten, chunks.drop k)
      ∧ i + headerFlag.length ≤ (buffer ++ (chunks.take k).flatten).length
      ∧ ∀ j < k, (buffer ++ (chunks.take j).flatten).length < i + headerFlag.length := by
  induction chunks generalizing buffer with
  | nil =>
    have hsome : (find headerFlag buffer).isSome = true := by
      rw [List.flatten_nil, List.append_nil] at hcut
      rw [← hcut, hfind]
      rfl
    refine ⟨0, ?_, ?_, fun j hj => absurd hj (Nat.not_lt_zero j)⟩
    · unfold readHead
      simp [hsome]
    · simpa using (find_flag_iff hfind hcut).mp hsome
  | cons s chunks ih =>
    by_cases hsome : (find headerFlag buffer).isSome = true
    · refine ⟨0, ?_, ?_, fun j hj => absurd hj (Nat.not_lt_zero j)⟩
      · unfold readHead
        simp [hsome]
      · simpa using (find_flag_iff hfind hcut).mp hsome
    · have hs : s ≠ [] := hne s (List.mem_cons_self ..)
      rw [List.flatten_cons, ← List.append_assoc] at hcut
      obtain ⟨k, hread, hreach, hfirst⟩ :=
        ih hcut fun t ht => hne t (List.mem_cons_of_mem _ ht)
      refine ⟨k + 1, ?_, ?_, ?_⟩
      · unfold readHead
        rw [if_neg hsome]
        dsimp only
        rw [if_neg hs, hread, List.append_assoc]
        rfl
      · simpa using hreach
      · intro j hj
        cases j with
        | zero =>
          rw [List.append_assoc] at hcut
          have := mt (find_flag_iff hfind hcut).mpr hsome
          simpa using this
        | succ j => simpa using hfirst j (by omega)

/-! ## The message -/

/-- Where the first separator in the stream is, what was received splits there. -/
theorem splitMessage_of_find (hfind : find headerFlag buffer = some head.length)
    (hcut : buffer = head ++ headerFlag ++ data) : splitMessage buffer = (head, data) := by
  have htake : buffer.take head.length = head := by
    rw [hcut, List.append_assoc]
    exact List.take_left
  have hdrop : buffer.drop (head.length + headerFlag.length) = data := by
    rw [hcut, ← List.length_append]
    exact List.drop_left
  unfold splitMessage splitN
  rw [hfind]
  dsimp only
  rw [htake, hdrop]
  rfl

/-- What `readmsg` makes of a message whose head is in order. -/
theorem readmsg_of_head {stream : Str} (hsplit : splitMessage buffer = (head, data))
    (hd : parseHead head = some d) (hprotocol : d.get (ascii "Protocol") = some VERSION)
    (hlength : d.get (ascii "Content-Length") = some length)
    (hn : pyInt length = some (n : Int)) (henough : n ≤ (data ++ stream).length) :
    readmsg buffer stream
      = .ok (d, if data.length < n then (data ++ stream).take n else data) := by
  have hfields : readFields buffer = some d := by
    show parseHead (splitMessage buffer).1 = some d
    rw [hsplit]
    exact hd
  have hversion : ¬ (some VERSION).getD [] ≠ VERSION := fun h => h rfl
  unfold readmsg
  rw [hsplit, hfields]
  dsimp only
  rw [hprotocol, if_neg hversion, hlength]
  dsimp only
  rw [hn]
  dsimp only
  by_cases hless : data.length < n
  · have hlong : ¬ ((data ++ stream).length : Int) < n := by omega
    rw [if_pos hless, if_pos (by omega), if_neg hlong, Int.toNat_natCast]
  · rw [if_neg hless, if_neg (by omega)]

/-- The message of a stream that begins with one comes out of the pieces just when one of them
ends behind the head and not behind the body. -/
theorem readmsgFrom_iff (hcut : chunks.flatten = head ++ headerFlag ++ body ++ after)
    (hfirst : find headerFlag chunks.flatten = some head.length)
    (hd : parseHead head = some d) (hprotocol : d.get (ascii "Protocol") = some VERSION)
    (hlength : d.get (ascii "Content-Length") = some length)
    (hn : pyInt length = some (body.length : Int))
    (hpieces : ∀ s ∈ chunks, s ≠ [] ∧ s.length ≤ RECV_MAX) :
    readmsgFrom chunks = .ok (d, body) ↔
      ∃ k, (head ++ headerFlag).length ≤ (chunks.take k).flatten.length
        ∧ (chunks.take k).flatten.length ≤ (head ++ headerFlag ++ body).length := by
  have hne : ∀ s ∈ chunks, s ≠ [] := fun s hs => (hpieces s hs).1
  obtain ⟨k, hread, hreach, hbefore⟩ :=
    readHead_of_find hfirst (List.nil_append chunks.flatten).symm hne
  simp only [List.nil_append] at hread hreach hbefore
  have hstream : (chunks.take k).flatten ++ (chunks.drop k).flatten = chunks.flatten := by
    rw [← List.flatten_append, List.take_append_drop]
  have hparts : (chunks.take k).flatten ++ (chunks.drop k).flatten
      = head ++ headerFlag ++ (body ++ after) := by
    rw [hstream, hcut, List.append_assoc]
  -- what was received behind the head
  obtain ⟨data, hdata⟩ : head ++ headerFlag <+: (chunks.take k).flatten := by
    refine List.prefix_of_prefix_length_le ⟨_, rfl⟩ ⟨_, hparts⟩ ?_
    rw [List.length_append]
    exact hreach
  have hbody : data ++ (chunks.drop k).flatten = body ++ after := by
    rw [← hdata, List.append_assoc] at hparts
    exact List.append_cancel_left hparts
  have hfind : find headerFlag (chunks.take k).flatten = some head.length := by
    obtain ⟨j, hj⟩ := Option.isSome_iff_exists.mp
      ((find_flag_iff hfirst hstream.symm).mpr hreach)
    have hlong := find_append_right hj (chunks.drop k).flatten
    rw [hstream, hfirst] at hlong
    rw [hj, hlong]
  have hmsg : readmsgFrom chunks
      = .ok (d, if data.length < body.length then body else data) := by
    have henough : body.length ≤ (data ++ (chunks.drop k).flatten).length := by
      rw [hbody, List.length_append]
      omega
    rw [readmsgFrom_eq (fun s hs => hne s (List.mem_of_mem_drop hs)) hread,
      readmsg_of_head (splitMessage_of_find hfind hdata.symm) hd hprotocol hlength hn henough,
      hbody, List.take_left]
  have hlen : (chunks.take k).flatten.length = (head ++ headerFlag).length + data.length := by
    rw [← hdata, List.length_append]
  have htotal : (head ++ headerFlag ++ body).length = (head ++ headerFlag).length + body.length :=
    List.length_append
  have hpre : body.length ≤ data.length → data <+: body ++ after → data.length ≤ body.length →
      data = body := by
    intro h1 h2 h3
    have := List.prefix_of_prefix_length_le h2 (List.prefix_append body after) h3
    exact this.eq_of_length (by omega)
  rw [hmsg]
  constructor
  · intro h
    refine ⟨k, by omega, ?_⟩
    rw [hlen, htotal]
    by_cases hless : data.length < body.length
    · omega
    · rw [if_neg hless] at h
      cases h
      omega
  · intro h
    obtain ⟨j, hlow, hhigh⟩ := h
    have hkj : k ≤ j := by
      by_contra hlt
      have := hbefore j (by omega)
      rw [List.length_append] at hlow
      omega
    have hmono : (chunks.take k).flatten.length ≤ (chunks.take j).flatten.length := by
      have htake : (chunks.take j).take k = chunks.take k := by
        rw [List.take_take, Nat.min_eq_left hkj]
      rw [← htake]
      exact ((List.take_prefix k (chunks.take j)).flatten).length_le
    have hfits : data.length ≤ body.length := by
      omega
    by_cases hless : data.length < body.length
    · rw [if_pos hless]
    · rw [if_neg hless, hpre (by omega) ⟨_, hbody⟩ hfits]

/-- The report of one block: its head, its fields and the number of the block. -/
def blockHead : Str :=
  ascii "SBPFS/1.0 POST\r\nUser: DNode_1\r\nBlockNum: 1\r\nContent-Length: 8"

def blockFields : Dict :=
  [(ascii "Protocol", VERSION), (ascii "Response", ascii "POST"), (ascii "User", ascii "DNode_1"),
    (ascii "BlockNum", ascii "1"), (ascii "Content-Length", ascii "8")]

def blockBody : Str := [5, 0, 0, 0, 0, 0, 0, 0]

/-- The report comes with its body cut in two, and a byte behind it is left alone. -/
theorem readmsgFrom_report :
    readmsgFrom [blockHead ++ headerFlag ++ blockBody.take 3, blockBody.drop 3 ++ ascii "\n"]
      = .ok (blockFields, blockBody) :=
  (@readmsgFrom_iff [blockHead ++ headerFlag ++ blockBody.take 3, blockBody.drop 3 ++ ascii "\n"]
    blockHead blockBody (ascii "\n") (ascii "8") blockFields (by decide +kernel) (by decide +kernel)
    (by decide +kernel) (by decide +kernel) (by decide +kernel) (by decide +kernel)
    (by decide +kernel)).mpr ⟨1, by decide +kernel, by decide +kernel⟩

/-- The head of a report of no block. -/
def reportHead : Str :=
  ascii "SBPFS/1.0 POST\r\nUser: DNode_1\r\nBlockNum: 0\r\nContent-Length: 0"

def reportFields : Dict :=
  [(ascii "Protocol", VERSION), (ascii "Response", ascii "POST"), (ascii "User", ascii "DNode_1"),
    (ascii "BlockNum", ascii "0"), (ascii "Content-Length", ascii "0")]

/-- A byte that comes along with the end of the head is taken into the body. -/
theorem readmsgFrom_overrun :
    [reportHead ++ headerFlag ++ ascii "\n"].flatten
        = reportHead ++ headerFlag ++ [] ++ ascii "\n"
      ∧ find headerFlag [reportHead ++ headerFlag ++ ascii "\n"].flatten = some reportHead.length
      ∧ parseHead reportHead = some reportFields
      ∧ reportFields.get (ascii "Protocol") = some VERSION
      ∧ reportFields.get (ascii "Content-Length") = some (ascii "0")
      ∧ pyInt (ascii "0") = some 0
      ∧ (∀ s ∈ [reportHead ++ headerFlag ++ ascii "\n"], s ≠ [] ∧ s.length ≤ RECV_MAX)
      ∧ readmsgFrom [reportHead ++ headerFlag ++ ascii "\n"] = .ok (reportFields, ascii "\n")
      ∧ readmsgFrom [reportHead ++ headerFlag ++ ascii "\n"] ≠ .ok (reportFields, []) := by
  decide +kernel

end Sbpfs.Cnode.Connection
