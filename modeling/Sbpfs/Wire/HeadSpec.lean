import Sbpfs.Wire.Head

/-!
# What is encoded is decoded

A head whose title, names and values are free of the separators survives every pair of
encoder and decoder. Only the separators themselves make a line end: neither a value that
ends in a carriage return nor a name that ends in a colon can be mistaken for one.
-/
namespace Sbpfs.Wire.HeadSpec

open Sbpfs.Lib.Program Sbpfs.Lib.Search Sbpfs.Wire.Head

/-- A title that can be sent: no line end in it, and not blank. -/
structure TitleOk (title : Str) : Prop where
  line : Free crlf title
  words : words title ≠ []
  nul : 0 ∉ title

/-- An entry that can be sent. -/
structure EntryOk (e : HeadEntry) : Prop where
  nameColon : Free colon e.name
  nameLine : Free crlf e.name
  notProtocol : e.name ≠ ascii "Protocol"
  notResponse : e.name ≠ ascii "Response"
  valueLine : Free crlf e.value
  nameNul : 0 ∉ e.name
  valueNul : 0 ∉ e.value

theorem crlf_borderless : Borderless crlf := by decide
theorem colon_borderless : Borderless colon := by decide
theorem crlf_ne : crlf ≠ [] := by decide

/-! ## Lines -/

/-- Two parts are free of a pair when no occurrence of it spans the seam. -/
theorem free_append {a b : UInt8} {p q : Str} (hp : Free [a, b] p) (hq : Free [a, b] q)
    (hseam : ¬ (p.getLast? = some a ∧ q.head? = some b)) : Free [a, b] (p ++ q) := by
  induction p with
  | nil => exact hq
  | cons c p ih =>
    rintro hi
    rcases List.infix_cons_iff.mp hi with hpre | hi
    · cases p with
      | nil =>
        cases q with
        | nil => exact hp hi
        | cons d q =>
          have hpair : [a, b] <+: c :: d :: q := hpre
          rw [List.cons_prefix_cons, List.cons_prefix_cons] at hpair
          refine hseam ⟨?_, ?_⟩
          · rw [hpair.1]
            rfl
          · rw [hpair.2.1]
            rfl
      | cons d p =>
        have hpair : [a, b] <+: c :: d :: (p ++ q) := hpre
        rw [List.cons_prefix_cons, List.cons_prefix_cons] at hpair
        refine hp (List.IsPrefix.isInfix ?_)
        rw [hpair.1, hpair.2.1]
        exact ⟨p, rfl⟩
    · refine ih hp.tail (fun h => hseam ⟨?_, h.2⟩) hi
      cases p with
      | nil => cases h.1
      | cons d p => exact h.1

theorem entryLine_free {e : HeadEntry} (h : EntryOk e) : Free crlf (entryLine e) := by
  have hvalue : Free crlf (colon ++ e.value) := by
    refine free_append (by decide) h.valueLine fun hs => ?_
    exact absurd hs.1 (by decide)
  have hname : Free crlf (e.name ++ (colon ++ e.value)) := by
    refine free_append h.nameLine hvalue fun hs => ?_
    exact absurd hs.2 (by simp [colon])
  rwa [← List.append_assoc] at hname

theorem entryLine_ne (e : HeadEntry) : entryLine e ≠ [] := by simp [entryLine, colon]

theorem entryLine_nul {e : HeadEntry} (h : EntryOk e) : 0 ∉ entryLine e := by
  have h1 := h.nameNul
  have h2 := h.valueNul
  simp [entryLine, colon, h1, h2]

theorem entryLines_nul {es : List HeadEntry} (h : ∀ e ∈ es, EntryOk e) : 0 ∉ entryLines es := by
  induction es with
  | nil => simp [entryLines]
  | cons e es ih =>
    have h1 := entryLine_nul (h e (List.mem_cons_self ..))
    have h2 := ih fun e he => h e (List.mem_cons_of_mem _ he)
    simp only [entryLines, List.flatMap_cons, List.mem_append, not_or] at h2 ⊢
    exact ⟨⟨h1, by decide⟩, h2⟩

/-! ## The end of a head -/

theorem crlf_not_head {e : HeadEntry} (h : EntryOk e) (rest : Str) :
    ¬ crlf <+: entryLine e ++ crlf ++ rest :=
  not_prefix_of_free crlf_borderless (entryLine_ne e) (entryLine_free h)

theorem headerFlag_eq : headerFlag = crlf ++ crlf := rfl

/-- The end of a head is found where it is. -/
theorem find_headerFlag {l body : Str} {es : List HeadEntry} (hl : Free crlf l)
    (hes : ∀ e ∈ es, EntryOk e) :
    find headerFlag (l ++ crlf ++ (entryLines es ++ crlf ++ body))
      = some (l.length + (entryLines es).length) := by
  induction es generalizing l with
  | nil => exact find_double_end crlf_borderless hl
  | cons e es ih =>
    have he := hes e (List.mem_cons_self ..)
    have hstep := ih (l := entryLine e) (entryLine_free he)
      fun e he => hes e (List.mem_cons_of_mem _ he)
    have hshape : entryLines (e :: es) ++ crlf ++ body
        = entryLine e ++ crlf ++ (entryLines es ++ crlf ++ body) := by
      simp [entryLines]
    have hline := find_double_line crlf_borderless hl
      (crlf_not_head he (entryLines es ++ crlf ++ body))
    rw [hshape, headerFlag_eq, hline, ← headerFlag_eq, hstep]
    simp [entryLines, crlf]
    omega

/-! ## Decoding in C -/

/-- An entry of which both strings have been ended in place. -/
def closed (e : HeadEntry) : Str := e.name ++ [0, 0x20] ++ e.value ++ [0, 0x0a]

def closedAll (es : List HeadEntry) : Str := es.flatMap closed

/-- The pointers to the strings of entries that start at `off`. -/
def pointers : Nat → List HeadEntry → List (Nat × Nat)
  | _, [] => []
  | off, e :: es => (off, off + e.name.length + 2) :: pointers (off + (closed e).length) es

theorem takeWhile_append_nul {s rest : Str} (h : 0 ∉ s) :
    (s ++ 0 :: rest).takeWhile (· ≠ 0) = s := by
  induction s with
  | nil => simp
  | cons c s ih =>
    simp only [List.mem_cons, not_or] at h
    have hc : c ≠ 0 := Ne.symm h.1
    rw [List.cons_append, List.takeWhile_cons_of_pos (by simpa using hc), ih h.2]

/-- The string that starts behind `done`. -/
theorem cstr_append {done s rest : Str} (h : 0 ∉ s) :
    cstr (done ++ (s ++ 0 :: rest)) done.length = s := by
  unfold cstr
  rw [List.drop_left, takeWhile_append_nul h]

/-- The bytes up to the next NUL, when a part without one comes first. -/
theorem cstr_behind {done s rest : Str} (h : 0 ∉ s) :
    cstr (done ++ (s ++ rest)) done.length = s ++ rest.takeWhile (· ≠ 0) := by
  unfold cstr
  rw [List.drop_left, List.takeWhile_append_of_pos]
  intro c hc
  have hne : c ≠ 0 := fun h0 => h (h0 ▸ hc)
  simpa using hne

/-- An entry that its line is read as. -/
structure Parted (e : HeadEntry) : Prop where
  line : Free crlf (entryLine e)
  nul : 0 ∉ entryLine e
  name : Free colon e.name

theorem EntryOk.parted {e : HeadEntry} (h : EntryOk e) : Parted e :=
  ⟨entryLine_free h, entryLine_nul h, h.nameColon⟩

/-- The pointers lead to the strings. -/
theorem strings_closed {done tail : Str} {es : List HeadEntry} (hes : ∀ e ∈ es, Parted e) :
    (pointers done.length es).map (fun p => (⟨cstr (done ++ (closedAll es ++ tail)) p.1,
      cstr (done ++ (closedAll es ++ tail)) p.2⟩ : HeadEntry)) = es := by
  induction es generalizing done with
  | nil => rfl
  | cons e es ih =>
    have hnul := (hes e (List.mem_cons_self ..)).nul
    simp only [entryLine, List.mem_append, not_or] at hnul
    obtain ⟨⟨hnameNul, -⟩, hvalueNul⟩ := hnul
    have hrest := @ih (done ++ closed e) fun e he => hes e (List.mem_cons_of_mem _ he)
    have hshape : done ++ (closedAll (e :: es) ++ tail) = done ++ closed e ++
      (closedAll es ++ tail) := by
      simp [closedAll]
    have hname : done ++ closed e ++ (closedAll es ++ tail)
        = done ++ (e.name ++ 0 :: (0x20 :: e.value ++ [0, 0x0a] ++ (closedAll es ++ tail))) := by
      simp [closed]
    have hvalue : done ++ closed e ++ (closedAll es ++ tail)
        = done ++ e.name ++ [0, 0x20] ++ (e.value ++ 0 :: (0x0a :: (closedAll es ++ tail))) := by
      simp [closed]
    have hoff : done.length + e.name.length + 2 = (done ++ e.name ++ [0, 0x20]).length := by
      simp only [List.length_append, List.length_cons, List.length_nil]
    rw [pointers, List.map_cons, hshape]
    rw [List.length_append] at hrest
    rw [hrest]
    congr 1
    rw [hoff]
    congr 1
    · rw [hname]
      exact cstr_append hnameNul
    · rw [hvalue]
      exact cstr_append hvalueNul

theorem set_append_self {done rest : Str} {c d : UInt8} :
    (done ++ c :: rest).set done.length d = done ++ d :: rest := by
  rw [List.set_append_right _ _ (Nat.le_refl _), Nat.sub_self]
  rfl

/-- Where the next line ends. -/
theorem strstr_line {done l rest : Str} (hnul : 0 ∉ l) (hl : Free crlf l) :
    strstr (done ++ (l ++ crlf ++ rest)) done.length crlf = some (done.length + l.length) := by
  have hnul' : 0 ∉ l ++ crlf := by
    simp only [List.mem_append, not_or]
    exact ⟨hnul, by decide⟩
  unfold strstr
  rw [cstr_behind hnul', find_append crlf_borderless hl]
  rfl

/-- The end of the next line is overwritten. -/
theorem set_line {done l rest : Str} :
    (done ++ (l ++ crlf ++ rest)).set (done.length + l.length) 0
      = done ++ (l ++ 0 :: (0x0a :: rest)) := by
  have hshape : done ++ (l ++ crlf ++ rest) = done ++ l ++ 0x0d :: (0x0a :: rest) := by
    simp [crlf]
  rw [hshape, ← List.length_append, set_append_self, List.append_assoc]

/-- The round of the loop for an entry. -/
theorem decodeLoop_entry {done rest : Str} {e : HeadEntry} {n : Nat} {ptrs : List (Nat × Nat)}
    (he : Parted e) (hroom : ptrs.length < MAX_ENTRY_IN_HEAD) :
    decodeLoop (n + 1) (done ++ (entryLine e ++ crlf ++ rest)) done.length ptrs
      = decodeLoop n (done ++ closed e ++ rest) (done ++ closed e).length
        (ptrs ++ [(done.length, done.length + e.name.length + 2)]) := by
  have hmoved : done.length + (entryLine e).length ≠ done.length := by
    have := List.length_pos_iff.mpr (entryLine_ne e)
    omega
  have hcolon : strstr (done ++ (entryLine e ++ 0 :: (0x0a :: rest))) done.length colon
      = some (done.length + e.name.length) := by
    unfold strstr
    rw [cstr_append he.nul, entryLine, find_append colon_borderless he.name]
    rfl
  have hset : (done ++ (entryLine e ++ 0 :: (0x0a :: rest))).set (done.length + e.name.length) 0
      = done ++ closed e ++ rest := by
    have hshape : done ++ (entryLine e ++ 0 :: (0x0a :: rest))
        = done ++ e.name ++ 0x3a :: (0x20 :: (e.value ++ 0 :: (0x0a :: rest))) := by
      simp [entryLine, colon]
    rw [hshape, ← List.length_append, set_append_self]
    simp [closed]
  have hlen : done.length + (entryLine e).length + 2 = (done ++ closed e).length := by
    simp only [entryLine, closed, colon, List.length_append, List.length_cons, List.length_nil]
    omega
  rw [decodeLoop, strstr_line he.nul he.line]
  dsimp only
  rw [if_neg hmoved, if_pos hroom, set_line, hcolon]
  dsimp only
  rw [hset, hlen]

/-- The loop ends the strings of all entries and collects their pointers. -/
theorem decodeLoop_entries {done rest : Str} {es : List HeadEntry} {n : Nat}
    {ptrs : List (Nat × Nat)}
    (hes : ∀ e ∈ es, Parted e) (hroom : ptrs.length + es.length ≤ MAX_ENTRY_IN_HEAD) :
    decodeLoop (n + es.length) (done ++ (entryLines es ++ rest)) done.length ptrs
      = decodeLoop n (done ++ closedAll es ++ rest) (done ++ closedAll es).length
        (ptrs ++ pointers done.length es) := by
  induction es generalizing done ptrs with
  | nil => simp [entryLines, closedAll, pointers]
  | cons e es ih =>
    have hshape : done ++ (entryLines (e :: es) ++ rest)
        = done ++ (entryLine e ++ crlf ++ (entryLines es ++ rest)) := by
      simp [entryLines]
    have hrest := @ih (done ++ closed e) (ptrs ++ [(done.length, done.length + e.name.length + 2)])
      (fun e he => hes e (List.mem_cons_of_mem _ he))
      (by simp only [List.length_append, List.length_cons, List.length_nil] at hroom ⊢; omega)
    have hfull : ptrs.length < MAX_ENTRY_IN_HEAD := by
      simp only [List.length_cons] at hroom
      omega
    rw [hshape, List.length_cons, ← Nat.add_assoc,
      decodeLoop_entry (hes e (List.mem_cons_self ..)) hfull,
      hrest]
    simp [closedAll, pointers]

/-- The loop ends at the empty line. -/
theorem decodeLoop_end {done rest : Str} {n : Nat} {ptrs : List (Nat × Nat)} :
    decodeLoop (n + 1) (done ++ (crlf ++ rest)) done.length ptrs
      = .ok (some (done ++ (crlf ++ rest), ptrs)) := by
  have hend : strstr (done ++ (crlf ++ rest)) done.length crlf = some done.length :=
    @strstr_line done [] rest List.not_mem_nil (free_nil crlf_ne)
  rw [decodeLoop, hend]
  dsimp only
  rw [if_pos rfl]

theorem length_le_entryLines (es : List HeadEntry) : es.length ≤ (entryLines es).length := by
  induction es with
  | nil => exact Nat.le_refl 0
  | cons e es ih =>
    simp only [entryLines, List.flatMap_cons, List.length_append, List.length_cons] at ih ⊢
    have hcrlf : crlf.length = 2 := rfl
    omega

/-- The C string at the start of a head and what follows it: the head is free of NUL, so
only a part of what follows can be missing. -/
theorem cstr_head {head body : Str} (h : 0 ∉ head) :
    cstr (head ++ body) 0 = head ++ body.takeWhile (· ≠ 0) :=
  @cstr_behind [] head body h

theorem head_nul {title : Str} {es : List HeadEntry} (ht : TitleOk title)
    (hes : ∀ e ∈ es, EntryOk e) : 0 ∉ title ++ crlf ++ entryLines es ++ crlf := by
  have h1 := ht.nul
  have h2 := entryLines_nul hes
  simp only [List.mem_append, not_or]
  exact ⟨⟨⟨h1, by decide⟩, h2⟩, by decide⟩

/-- `decode_head` is its loop on a copy of the head in which the title has been ended. -/
theorem decodeHead_eq {b title rest : Str} {k : Nat} (hend : find headerFlag (cstr b 0) = some k)
    (hhead : b.take (k + headerFlag.length) = title ++ crlf ++ rest) (htitle : Free crlf title)
    (hnul : 0 ∉ title) :
    decodeHead true b = (decodeLoop (title ++ crlf ++ rest ++ [0]).length
      (title ++ [0, 0x0a] ++ (rest ++ [0])) (title ++ [0, 0x0a]).length []).map
        fun r => r.map fun q => ⟨k + headerFlag.length, q.1, q.2⟩ := by
  have hend' : strstr b 0 headerFlag = some k := by
    unfold strstr
    rw [hend]
    simp
  have hline : strstr (title ++ crlf ++ rest ++ [0]) 0 crlf = some title.length := by
    have h := @strstr_line [] title (rest ++ [0]) hnul htitle
    simpa using h
  have hset : (title ++ crlf ++ rest ++ [0]).set title.length 0
      = title ++ [0, 0x0a] ++ (rest ++ [0]) := by
    have h := @set_line [] title (rest ++ [0])
    simpa using h
  have hstart : title.length + 2 = (title ++ [0, 0x0a]).length := by
    rw [List.length_append]
    rfl
  unfold decodeHead
  rw [hend']
  dsimp only
  rw [if_pos rfl, hhead, hline]
  dsimp only
  rw [hset, hstart]
  cases decodeLoop (title ++ crlf ++ rest ++ [0]).length (title ++ [0, 0x0a] ++ (rest ++ [0]))
      (title ++ [0, 0x0a]).length [] with
  | error stop => rfl
  | ok r => cases r <;> rfl

/-- Entries are decoded as they stand. -/
theorem decodeHead_entries {b title : Str} {k : Nat} {es : List HeadEntry}
    (hend : find headerFlag (cstr b 0) = some k)
    (hhead : b.take (k + headerFlag.length) = title ++ crlf ++ (entryLines es ++ crlf))
    (htitle : Free crlf title) (hnul : 0 ∉ title) (hes : ∀ e ∈ es, Parted e)
    (hroom : es.length ≤ MAX_ENTRY_IN_HEAD) :
    decodeHead true b = .ok (some ⟨k + headerFlag.length,
      title ++ [0, 0x0a] ++ (closedAll es ++ (crlf ++ [0])),
      pointers (title ++ [0, 0x0a]).length es⟩) := by
  obtain ⟨n, hn⟩ : ∃ n, (title ++ crlf ++ (entryLines es ++ crlf) ++ [0]).length
      = n + 1 + es.length := by
    have := length_le_entryLines es
    refine ⟨(title ++ crlf ++ (entryLines es ++ crlf)).length - es.length, ?_⟩
    simp only [List.length_append, List.length_cons, List.length_nil]
    omega
  have hloop := @decodeLoop_entries (title ++ [0, 0x0a]) (crlf ++ [0]) es (n + 1) [] hes
    (by simpa using hroom)
  rw [decodeLoop_end] at hloop
  rw [decodeHead_eq hend hhead htitle hnul, hn, List.append_assoc (entryLines es), hloop]
  simp [Except.map]

theorem title_closed {title rest : Str} (h : 0 ∉ title) :
    cstr (title ++ [0, 0x0a] ++ rest) 0 = title := by
  have htitle := @cstr_append [] _ (0x0a :: rest) h
  simpa using htitle

/-- `decode_head` finds in the bytes of a head what was put into them. -/
theorem decodeHead_bytes {title body : Str} {es : List HeadEntry} (ht : TitleOk title)
    (hes : ∀ e ∈ es, EntryOk e) (hroom : es.length ≤ MAX_ENTRY_IN_HEAD) :
    ∃ h, decodeHead true (title ++ crlf ++ entryLines es ++ crlf ++ body) = .ok (some h) ∧
      h.title = title ∧ h.strings = es ∧
      h.headLen = (title ++ crlf ++ entryLines es ++ crlf).length := by
  have hnul := head_nul ht hes
  have hend : find headerFlag (cstr (title ++ crlf ++ entryLines es ++ crlf ++ body) 0)
      = some (title.length + (entryLines es).length) := by
    have hfind := @find_headerFlag title (body.takeWhile (· ≠ 0)) _ ht.line hes
    rw [cstr_head hnul]
    simp only [List.append_assoc] at hfind ⊢
    exact hfind
  have hheadLen : title.length + (entryLines es).length + headerFlag.length
      = (title ++ crlf ++ entryLines es ++ crlf).length := by
    have hcrlf : crlf.length = 2 := rfl
    have hflag : headerFlag.length = 4 := rfl
    simp only [List.length_append]
    omega
  have hhead : (title ++ crlf ++ entryLines es ++ crlf ++ body).take
      (title.length + (entryLines es).length + headerFlag.length)
        = title ++ crlf ++ (entryLines es ++ crlf) := by
    rw [hheadLen, List.take_left, List.append_assoc (title ++ crlf)]
  have hparted : ∀ e ∈ es, Parted e := fun e he => (hes e he).parted
  exact ⟨_, decodeHead_entries hend hhead ht.line ht.nul hparted hroom, title_closed ht.nul,
    strings_closed hparted, hheadLen⟩

/-! ## Decoding in Python -/

/-- The fields of a message: the words of its title and its entries. -/
def fields (title : Str) (es : List HeadEntry) : Dict :=
  (match words title with
    | [] => []
    | [protocol] => [(ascii "Protocol", protocol)]
    | protocol :: response :: _ =>
      [(ascii "Protocol", protocol), (ascii "Response", response)])
  ++ es.map fun e => (e.name, e.value)

theorem hasKey_iff {d : Dict} {key : Str} : d.hasKey key = true ↔ key ∈ d.map Prod.fst := by
  simp [Dict.hasKey]

theorem parseLine_entry {d : Dict} {e : HeadEntry} (he : EntryOk e)
    (hd : e.name ∉ d.map Prod.fst) :
    parseLine d (entryLine e) = some (d ++ [(e.name, e.value)]) := by
  have hkey : ¬ d.hasKey e.name = true := fun h => hd (hasKey_iff.mp h)
  have hsplit : splitN colon 1 (entryLine e) = [e.name, e.value] :=
    splitN_append colon_borderless he.nameColon 0
  rw [parseLine, hsplit]
  dsimp only
  rw [if_neg hkey]

/-- Reading the lines of entries with new names adds just these entries. -/
theorem parseLines_entries {d : Dict} {es : List HeadEntry} (hes : ∀ e ∈ es, EntryOk e)
    (hnames : (es.map HeadEntry.name).Nodup) (hd : ∀ e ∈ es, e.name ∉ d.map Prod.fst) :
    (es.map entryLine).foldlM parseLine d = some (d ++ es.map fun e => (e.name, e.value)) := by
  induction es generalizing d with
  | nil => simp
  | cons e es ih =>
    rw [List.map_cons, List.nodup_cons] at hnames
    have hline := parseLine_entry (hes e (List.mem_cons_self ..)) (hd e (List.mem_cons_self ..))
    have hd' : ∀ e' ∈ es, e'.name ∉ (d ++ [(e.name, e.value)]).map Prod.fst := by
      intro e' he' hmem
      rw [List.map_append, List.mem_append] at hmem
      rcases hmem with hmem | hmem
      · exact hd e' (List.mem_cons_of_mem _ he') hmem
      · simp only [List.map_cons, List.map_nil, List.mem_singleton] at hmem
        exact hnames.1 (List.mem_map.mpr ⟨e', he', hmem⟩)
    rw [List.map_cons, List.foldlM_cons, hline]
    simp only [Option.bind_eq_bind, Option.bind_some]
    rw [ih (fun e he => hes e (List.mem_cons_of_mem _ he)) hnames.2 hd']
    simp

/-- The lines of a head are its pieces between the line ends. -/
theorem head_lines (title : Str) (es : List HeadEntry) :
    title ++ crlf ++ entryLines es ++ crlf
      = List.intercalate crlf (title :: es.map entryLine) ++ crlf ++ crlf := by
  induction es generalizing title with
  | nil => simp [entryLines]
  | cons e es ih =>
    have h := ih (entryLine e)
    rw [List.map_cons, List.intercalate_cons_cons]
    simp only [entryLines, List.flatMap_cons, List.append_assoc] at h ⊢
    rw [h]

theorem parseHead_lines {title : Str} {es : List HeadEntry} (ht : TitleOk title)
    (hes : ∀ e ∈ es, EntryOk e) (hnames : (es.map HeadEntry.name).Nodup) :
    parseHead (List.intercalate crlf (title :: es.map entryLine)) = some (fields title es) := by
  have hfree : ∀ x ∈ title :: es.map entryLine, Free crlf x := by
    intro x hx
    rcases List.mem_cons.mp hx with rfl | hx
    · exact ht.line
    · obtain ⟨e, he, rfl⟩ := List.mem_map.mp hx
      exact entryLine_free (hes e he)
  have hnames' : ∀ e ∈ es, e.name ≠ ascii "Protocol" ∧ e.name ≠ ascii "Response" :=
    fun e he => ⟨(hes e he).notProtocol, (hes e he).notResponse⟩
  unfold parseHead fields
  rw [split_join crlf_ne crlf_borderless hfree]
  dsimp only
  cases hwords : words title with
  | nil => exact absurd hwords ht.words
  | cons protocol ws =>
    cases ws with
    | nil =>
      refine parseLines_entries hes hnames fun e he hmem => ?_
      simp only [List.map_cons, List.map_nil, List.mem_singleton] at hmem
      exact (hnames' e he).1 hmem
    | cons response ws =>
      refine parseLines_entries hes hnames fun e he hmem => ?_
      simp only [List.map_cons, List.map_nil, List.mem_cons, List.not_mem_nil, or_false] at hmem
      rcases hmem with hmem | hmem
      · exact (hnames' e he).1 hmem
      · exact (hnames' e he).2 hmem

/-! ## Encoding in Python -/

/-- A dictionary as a list of entries. -/
def entries (d : Dict) : List HeadEntry := d.map fun f => ⟨f.1, f.2⟩

/-- Both encoders write the same bytes. -/
theorem genHead_eq (title : Str) (d : Dict) :
    genHead title d = title ++ crlf ++ entryLines (entries d) ++ crlf := by
  unfold genHead
  induction d generalizing title with
  | nil => simp [entries, entryLines, List.intercalate_cons_cons]
  | cons f d ih =>
    have h := ih (f.1 ++ colon ++ f.2)
    rw [List.map_cons, List.cons_append, List.cons_append, List.intercalate_cons_cons,
      ← List.cons_append, h]
    simp only [entries, entryLines, entryLine, List.map_cons, List.flatMap_cons, List.append_assoc]

theorem getHeadEntryValue_entries {h : SbpfsHead} {d : Dict} (hd : h.strings = entries d)
    (key : Str) : getHeadEntryValue h key = d.get key := by
  unfold getHeadEntryValue valueOf Dict.get
  rw [hd, entries, List.find?_map, Option.map_map]
  rfl

/-- Heads of a sound title and at most 32 sound entries with distinct names survive: `decode_head`
and `parse_head` give back what `make_head` was given, and `decode_head` finds in a head
of `gen_head` the value of every key, in whatever order the dictionary lists its keys. -/
theorem head_roundTrip {title : Str} {es : List HeadEntry} (ht : TitleOk title)
    (hes : ∀ e ∈ es, EntryOk e) (hnames : (es.map HeadEntry.name).Nodup)
    (hroom : es.length ≤ MAX_ENTRY_IN_HEAD) :
    ∃ out, makeHead title es = some out ∧
      (∀ body, ∃ h, decodeHead true (out ++ body) = .ok (some h) ∧
        h.title = title ∧ h.strings = es ∧ h.headLen = out.length) ∧
      (∃ head, out = head ++ crlf ++ crlf ∧ parseHead head = some (fields title es)) ∧
      ∀ d : Dict, (entries d).Perm es →
        ∃ h, decodeHead true (genHead title d) = .ok (some h) ∧
          ∀ key, getHeadEntryValue h key = d.get key := by
  refine ⟨title ++ crlf ++ entryLines es ++ crlf, ?_, fun body => decodeHead_bytes ht hes hroom,
    ⟨_, head_lines title es, parseHead_lines ht hes hnames⟩, fun d hd => ?_⟩
  · rw [makeHead, if_neg (Nat.not_lt.mpr hroom)]
  · have hes' : ∀ e ∈ entries d, EntryOk e := fun e he => hes e (hd.subset he)
    have hroom' : (entries d).length ≤ MAX_ENTRY_IN_HEAD := hd.length_eq ▸ hroom
    obtain ⟨h, hdec, -, hstrings, -⟩ := @decodeHead_bytes _ [] _ ht hes' hroom'
    rw [List.append_nil, ← genHead_eq] at hdec
    exact ⟨h, hdec, getHeadEntryValue_entries hstrings⟩

/-- The reply to an OPEN request, with an empty value and one that ends in a carriage return. -/
def openReply : List HeadEntry :=
  [⟨ascii "FD", ascii "3"⟩, ⟨ascii "Auth-Code", []⟩, ⟨ascii "Note:", ascii "x\r"⟩]

theorem head_roundTrip_openReply :
    ∃ out, makeHead (ascii "SBPFS/1.0 OK") openReply = some out ∧
      (∀ body, ∃ h, decodeHead true (out ++ body) = .ok (some h) ∧
        h.title = ascii "SBPFS/1.0 OK" ∧ h.strings = openReply ∧ h.headLen = out.length) ∧
      (∃ head, out = head ++ crlf ++ crlf ∧
        parseHead head = some (fields (ascii "SBPFS/1.0 OK") openReply)) ∧
      ∀ d : Dict, (entries d).Perm openReply →
        ∃ h, decodeHead true (genHead (ascii "SBPFS/1.0 OK") d) = .ok (some h) ∧
          ∀ key, getHeadEntryValue h key = d.get key := by
  have hentry : ∀ e ∈ openReply, EntryOk e := by
    intro e he
    simp only [openReply, List.mem_cons, List.not_mem_nil, or_false] at he
    rcases he with rfl | rfl | rfl
    · exact ⟨by decide, by decide, by decide, by decide, by decide, by decide, by decide⟩
    · exact ⟨by decide, by decide, by decide, by decide, by decide, by decide, by decide⟩
    · exact ⟨by decide, by decide, by decide, by decide, by decide, by decide, by decide⟩
  exact head_roundTrip ⟨by decide, by decide, by decide⟩ hentry (by decide) (by decide)

end Sbpfs.Wire.HeadSpec
