import Mathlib.Data.List.TakeWhile
import Sbpfs.Wire.HeadSpec

/-!
# Decoding whatever comes

What `decode_head` does to a text that was not made by one of the encoders. A line is an entry
when it holds a colon and a blank, and the first such place cuts it; nothing is asked of the number
of lines, and the array of entries has room for 32.
-/
namespace Sbpfs.Wire.HeadSafety

open Sbpfs.Lib.Program Sbpfs.Lib.Search Sbpfs.Wire.Head Sbpfs.Wire.HeadSpec

/-- The lines between the title and the blank line. -/
def headLines (s : Str) : Option (List Str) :=
  (find headerFlag s).map fun k => (split crlf (s.take k)).tail

/-- A string with its NUL starts there. -/
def Terminated (d : Str) (p : Nat) : Prop := ∃ q, p ≤ q ∧ d[q]? = some 0

/-- The head holds the lines of the text as entries. -/
structure Decoded (data : Str) (h : SbpfsHead) : Prop where
  lines : ∃ ls, headLines (cstr data 0) = some ls ∧ (∀ l ∈ ls, colon <:+: l) ∧
    h.entrys.length = ls.length ∧ h.strings.map entryLine = ls
  room : h.entrys.length ≤ MAX_ENTRY_IN_HEAD
  inside : ∀ p ∈ h.entrys, Terminated h.data p.1 ∧ Terminated h.data p.2

/-- `decode_head` returns, with nothing stored outside the array, and accepts only a head. -/
structure Safe (data : Str) : Prop where
  returns : ∀ mem, ∃ r, decodeHead mem data = .ok r
  accepts : ∀ mem h, decodeHead mem data = .ok (some h) → Decoded data h

/-! ## The lines of a text -/

/-- A line of a head. -/
structure LineOk (l : Str) : Prop where
  line : Free crlf l
  nul : 0 ∉ l
  ne : l ≠ []

/-- Lines with their ends. -/
def ended (ls : List Str) : Str := ls.flatMap fun l => l ++ crlf

theorem ended_entries (es : List HeadEntry) : ended (es.map entryLine) = entryLines es := by
  unfold ended entryLines
  rw [List.flatMap_map]

/-- A line with a colon is cut at the first one. -/
theorem exists_parted {l : Str} (h : LineOk l) (hcolon : colon <:+: l) :
    ∃ e, entryLine e = l ∧ Parted e := by
  obtain ⟨i, hi⟩ : ∃ i, find colon l = some i := by
    refine Option.ne_none_iff_exists'.mp fun hnone => ?_
    exact (find_eq_none (by decide)).mp hnone hcolon
  have hl : entryLine ⟨l.take i, l.drop (i + colon.length)⟩ = l := (find_eq hi).symm
  refine ⟨_, hl, ⟨?_, ?_, find_take_free (by decide) hi⟩⟩
  · rw [hl]
    exact h.line
  · rw [hl]
    exact h.nul

theorem exists_entries {ls : List Str} (h : ∀ l ∈ ls, LineOk l) (hcolon : ∀ l ∈ ls, colon <:+: l) :
    ∃ es : List HeadEntry, es.map entryLine = ls ∧ ∀ e ∈ es, Parted e := by
  induction ls with
  | nil => exact ⟨[], rfl, fun e he => absurd he List.not_mem_nil⟩
  | cons l ls ih =>
    obtain ⟨e, rfl, he⟩ :=
      exists_parted (h l (List.mem_cons_self ..)) (hcolon l (List.mem_cons_self ..))
    obtain ⟨es, rfl, hes⟩ := ih (fun l hl => h l (List.mem_cons_of_mem _ hl))
      fun l hl => hcolon l (List.mem_cons_of_mem _ hl)
    exact ⟨e :: es, rfl, List.forall_mem_cons.mpr ⟨he, hes⟩⟩

theorem intercalate_ended (title : Str) (ls : List Str) :
    List.intercalate crlf (title :: ls) ++ crlf = title ++ crlf ++ ended ls := by
  induction ls generalizing title with
  | nil => simp [ended]
  | cons l ls ih =>
    have h := ih l
    rw [List.intercalate_cons_cons, List.append_assoc, h]
    simp [ended]

/-- The text up to its blank line: a title and lines that are not blank. -/
structure Headed (data : Str) (k : Nat) (title : Str) (ls : List Str) : Prop where
  found : find headerFlag (cstr data 0) = some k
  text : data.take (k + headerFlag.length) = title ++ crlf ++ (ended ls ++ crlf)
  titleLine : Free crlf title
  titleNul : 0 ∉ title
  lines : ∀ l ∈ ls, LineOk l
  split : headLines (cstr data 0) = some ls

theorem cstr_nul (b : Str) (p : Nat) : 0 ∉ cstr b p := by
  intro h
  simpa using List.mem_takeWhile_imp h

/-- Every text with a blank line is headed. -/
theorem exists_headed {data : Str} {k : Nat} (h : find headerFlag (cstr data 0) = some k) :
    ∃ title ls, Headed data k title ls := by
  obtain ⟨title, ls, hsplit, hfree, hjoin⟩ := split_spec crlf_ne ((cstr data 0).take k)
  have hne : [] ∉ ls := by
    have hnil := nil_notMem_split crlf_ne crlf_borderless h
    rw [hsplit] at hnil
    exact hnil
  have hlen := find_length h
  have htake : (cstr data 0).take (k + headerFlag.length) = data.take (k + headerFlag.length) := by
    obtain ⟨t, ht⟩ : cstr data 0 <+: data := List.takeWhile_prefix _
    calc (cstr data 0).take (k + headerFlag.length)
        = (cstr data 0 ++ t).take (k + headerFlag.length) :=
          (List.take_append_of_le_length hlen).symm
      _ = data.take (k + headerFlag.length) := by rw [ht]
  have hflag : (cstr data 0).take (k + headerFlag.length) = (cstr data 0).take k ++ headerFlag := by
    have hcut := find_eq h
    conv_lhs => rw [hcut]
    have hkk : ((cstr data 0).take k ++ headerFlag).length = k + headerFlag.length := by
      rw [List.length_append, List.length_take]
      omega
    rw [← hkk, List.take_left]
  have htext : data.take (k + headerFlag.length) = title ++ crlf ++ (ended ls ++ crlf) := by
    rw [← htake, hflag, hjoin, headerFlag_eq, ← List.append_assoc, intercalate_ended,
      List.append_assoc]
  have hnul : 0 ∉ title ++ crlf ++ (ended ls ++ crlf) := by
    rw [← htext, ← htake]
    exact fun hmem => cstr_nul data 0 (List.mem_of_mem_take hmem)
  simp only [List.mem_append, not_or] at hnul
  obtain ⟨⟨htitle, -⟩, hended, -⟩ := hnul
  refine ⟨title, ls, h, htext, hfree title (List.mem_cons_self ..), htitle,
    fun l hl => ⟨?_, ?_, ?_⟩, ?_⟩
  · exact hfree l (List.mem_cons_of_mem _ hl)
  · intro hmem
    exact hended (List.mem_flatMap.mpr ⟨l, hl, List.mem_append_left _ hmem⟩)
  · rintro rfl
    exact hne hl
  · unfold headLines
    rw [h, Option.map_some, hsplit, List.tail_cons]

/-! ## The rounds of the loop -/

section Rounds

variable {done rest l : Str} {n : Nat} {ptrs : List (Nat × Nat)}

/-- A line without a colon ends the loop with -1. -/
theorem decodeLoop_rejects (hl : LineOk l) (hroom : ptrs.length < MAX_ENTRY_IN_HEAD)
    (hcolon : Free colon l) :
    decodeLoop (n + 1) (done ++ (l ++ crlf ++ rest)) done.length ptrs = .ok none := by
  have hmoved : done.length + l.length ≠ done.length := by
    have := List.length_pos_iff.mpr hl.ne
    omega
  have hnone : strstr (done ++ (l ++ 0 :: (0x0a :: rest))) done.length colon = none := by
    unfold strstr
    rw [cstr_append hl.nul, (find_eq_none (by decide)).mpr hcolon]
    rfl
  rw [decodeLoop, strstr_line hl.nul hl.line]
  dsimp only
  rw [if_neg hmoved, if_pos hroom, set_line, hnone]

/-- A line behind a full array is stored outside of it. -/
theorem decodeLoop_overflows (hl : LineOk l) (hfull : MAX_ENTRY_IN_HEAD ≤ ptrs.length) :
    decodeLoop (n + 1) (done ++ (l ++ crlf ++ rest)) done.length ptrs = .error .fault := by
  have hmoved : done.length + l.length ≠ done.length := by
    have := List.length_pos_iff.mpr hl.ne
    omega
  rw [decodeLoop, strstr_line hl.nul hl.line]
  dsimp only
  rw [if_neg hmoved, if_neg (Nat.not_lt.mpr hfull)]

end Rounds

section Heads

variable {data title : Str} {k : Nat} {ls : List Str}

theorem pointers_length (off : Nat) (es : List HeadEntry) :
    (pointers off es).length = es.length := by
  induction es generalizing off with
  | nil => rfl
  | cons e es ih => rw [pointers, List.length_cons, List.length_cons, ih]

theorem terminated_of_le {a rest : Str} {p : Nat} (h : p ≤ a.length) :
    Terminated (a ++ 0 :: rest) p :=
  ⟨a.length, h, by simp⟩

/-- Every pointer leads to a string that was ended. -/
theorem pointers_terminated {done tail : Str} {es : List HeadEntry} :
    ∀ p ∈ pointers done.length es, Terminated (done ++ (closedAll es ++ tail)) p.1 ∧
      Terminated (done ++ (closedAll es ++ tail)) p.2 := by
  induction es generalizing done with
  | nil => exact fun p hp => absurd hp List.not_mem_nil
  | cons e es ih =>
    have hrest := @ih (done ++ closed e)
    have hshape : done ++ closed e ++ (closedAll es ++ tail) = done ++
      (closedAll (e :: es) ++ tail) := by
      simp [closedAll]
    rw [hshape, List.length_append] at hrest
    refine List.forall_mem_cons.mpr ⟨⟨?_, ?_⟩, hrest⟩
    · have hname : done ++ (closedAll (e :: es) ++ tail)
          = done ++ e.name ++ 0 :: (0x20 :: (e.value ++ [0, 0x0a] ++ (closedAll es ++ tail))) := by
        simp [closedAll, closed]
      rw [hname]
      exact terminated_of_le (by rw [List.length_append]; exact Nat.le_add_right _ _)
    · have hvalue : done ++ (closedAll (e :: es) ++ tail)
          = done ++ e.name ++ [0, 0x20] ++ e.value ++ 0 :: (0x0a :: (closedAll es ++ tail)) := by
        simp [closedAll, closed]
      rw [hvalue]
      refine terminated_of_le ?_
      simp only [List.length_append, List.length_cons, List.length_nil]
      exact Nat.le_add_right _ _

/-- With entries in front the loop comes to the lines behind them. -/
theorem decodeHead_reaches {es : List HeadEntry} {ls' : List Str}
    (h : Headed data k title (es.map entryLine ++ ls')) (hes : ∀ e ∈ es, Parted e)
    (hroom : es.length ≤ MAX_ENTRY_IN_HEAD) : ∃ n done ptrs, ptrs.length = es.length ∧
      decodeHead true data = (decodeLoop (n + 1) (done ++ (ended ls' ++ (crlf ++ [0]))) done.length
        ptrs).map fun r => r.map fun q => ⟨k + headerFlag.length, q.1, q.2⟩ := by
  have hended : ended (es.map entryLine ++ ls') = entryLines es ++ ended ls' := by
    rw [← ended_entries]
    exact List.flatMap_append
  have htext := h.text
  rw [hended] at htext
  obtain ⟨n, hn⟩ : ∃ n, (title ++ crlf ++ (entryLines es ++ ended ls' ++ crlf) ++ [0]).length
      = n + 1 + es.length := by
    have := length_le_entryLines es
    refine ⟨(title ++ crlf ++ (entryLines es ++ ended ls' ++ crlf)).length - es.length, ?_⟩
    simp only [List.length_append, List.length_cons, List.length_nil]
    omega
  have hloop := @decodeLoop_entries (title ++ [0, 0x0a]) (ended ls' ++ (crlf ++ [0])) es
    (n + 1) [] hes
    (by simpa using hroom)
  refine ⟨n, title ++ [0, 0x0a] ++ closedAll es, [] ++
    pointers (title ++ [0, 0x0a]).length es, ?_, ?_⟩
  · rw [List.nil_append, pointers_length]
  · rw [decodeHead_eq h.found htext h.titleLine h.titleNul, hn, ← hloop]
    simp only [List.append_assoc]

/-- A head of at most 32 entries is accepted. -/
theorem decodeHead_accepts {es : List HeadEntry} (h : Headed data k title (es.map entryLine))
    (hes : ∀ e ∈ es, Parted e) (hroom : es.length ≤ MAX_ENTRY_IN_HEAD) :
    ∃ h, decodeHead true data = .ok (some h) ∧ Decoded data h := by
  have htext := h.text
  rw [ended_entries] at htext
  refine ⟨_, decodeHead_entries h.found htext h.titleLine h.titleNul hes hroom, ?_, ?_, ?_⟩
  · refine ⟨es.map entryLine, h.split, fun l hl => ?_, ?_, ?_⟩
    · obtain ⟨e, -, rfl⟩ := List.mem_map.mp hl
      exact ⟨e.name, e.value, rfl⟩
    · rw [pointers_length, List.length_map]
    · exact congrArg (List.map entryLine) (strings_closed hes)
  · rw [pointers_length]
    exact hroom
  · exact pointers_terminated

/-- The first line without a colon. -/
theorem exists_first_bad {m : Nat} (h : ∃ l ∈ ls.take m, Free colon l) :
    ∃ good l rest, ls = good ++ l :: rest ∧ (∀ x ∈ good, colon <:+: x) ∧ Free colon l ∧
      good.length < m := by
  induction ls generalizing m with
  | nil =>
    rw [List.take_nil] at h
    obtain ⟨l, hl, -⟩ := h
    cases hl
  | cons x ls ih =>
    obtain ⟨l, hl, hbad⟩ := h
    obtain ⟨m, rfl⟩ : ∃ n, m = n + 1 := by
      cases m with
      | zero => cases hl
      | succ n => exact ⟨n, rfl⟩
    by_cases hx : colon <:+: x
    · rw [List.take_succ_cons] at hl
      have hl' : l ∈ ls.take m := (List.mem_cons.mp hl).resolve_left fun he => hbad (he ▸ hx)
      obtain ⟨good, l', rest, rfl, hgood, hbad', hlen⟩ := ih ⟨l, hl', hbad⟩
      exact ⟨x :: good, l', rest, rfl, List.forall_mem_cons.mpr ⟨hx, hgood⟩, hbad',
        Nat.succ_lt_succ hlen⟩
    · exact ⟨[], x, ls, rfl, fun y hy => absurd hy List.not_mem_nil, hx, Nat.succ_pos m⟩

/-- A head in which one of the first 32 lines is no entry is refused. -/
theorem decodeHead_rejects (h : Headed data k title ls)
    (hbad : ∃ l ∈ ls.take MAX_ENTRY_IN_HEAD, Free colon l) : decodeHead true data = .ok none := by
  obtain ⟨good, l, rest, rfl, hgood, hcolon, hlen⟩ := exists_first_bad hbad
  obtain ⟨es, rfl, hparted⟩ :=
    exists_entries (fun x hx => h.lines x (List.mem_append_left _ hx)) hgood
  rw [List.length_map] at hlen
  obtain ⟨n, done, ptrs, hptrs, hrun⟩ := decodeHead_reaches h hparted (Nat.le_of_lt hlen)
  have hl : LineOk l := h.lines l (List.mem_append_right _ (List.mem_cons_self ..))
  have hnext : ended (l :: rest) ++ (crlf ++ [0]) = l ++ crlf ++ (ended rest ++ (crlf ++ [0])) := by
    simp [ended]
  rw [hrun, hnext, decodeLoop_rejects hl (hptrs.trans_lt hlen) hcolon]
  rfl

/-- A head of more entries than that is written outside of the array. -/
theorem decodeHead_overflows (h : Headed data k title ls) (hlong : MAX_ENTRY_IN_HEAD < ls.length)
    (hall : ∀ l ∈ ls.take MAX_ENTRY_IN_HEAD, colon <:+: l) :
    decodeHead true data = .error .fault := by
  have hcut : ls.take MAX_ENTRY_IN_HEAD ++ ls.drop MAX_ENTRY_IN_HEAD = ls :=
    List.take_append_drop _ _
  obtain ⟨es, hes, hparted⟩ := exists_entries (fun l hl => h.lines l (List.mem_of_mem_take hl)) hall
  have hlen : es.length = MAX_ENTRY_IN_HEAD := by
    rw [← List.length_map entryLine, hes, List.length_take]
    omega
  rw [← hcut, ← hes] at h
  obtain ⟨n, done, ptrs, hptrs, hrun⟩ := decodeHead_reaches h hparted (Nat.le_of_eq hlen)
  obtain ⟨l, ls', hdrop⟩ : ∃ l ls', ls.drop MAX_ENTRY_IN_HEAD = l :: ls' :=
    List.exists_cons_of_length_pos (by rw [List.length_drop]; omega)
  have hl : LineOk l :=
    h.lines l (by rw [hdrop]; exact List.mem_append_right _ (List.mem_cons_self ..))
  have hnext : ended (l :: ls') ++ (crlf ++ [0]) = l ++ crlf ++ (ended ls' ++ (crlf ++ [0])) := by
    simp [ended]
  rw [hrun, hdrop, hnext, decodeLoop_overflows hl (hptrs.trans hlen).ge]
  rfl

/-- Without a blank line, or without memory for the copy, nothing is decoded. -/
theorem decodeHead_none {mem : Bool} (h : find headerFlag (cstr data 0) = none ∨ mem = false) :
    decodeHead mem data = .ok none := by
  unfold decodeHead
  cases hend : strstr data 0 headerFlag with
  | none => rfl
  | some k =>
    rcases h with hnone | rfl
    · unfold strstr at hend
      rw [hnone] at hend
      cases hend
    · rfl

end Heads

/-! ## When it is safe -/

theorem safe_of_none {data : Str} (h : ∀ mem, decodeHead mem data = .ok none) : Safe data := by
  refine ⟨fun mem => ⟨none, h mem⟩, fun mem d hd => ?_⟩
  rw [h mem] at hd
  cases hd

/-- Decoding is safe unless the head has more than 32 lines and the first 32 are entries. -/
theorem decodeHead_safe_iff (data : Str) :
    Safe data ↔ ∀ ls, headLines (cstr data 0) = some ls →
      ls.length ≤ MAX_ENTRY_IN_HEAD ∨ ∃ l ∈ ls.take MAX_ENTRY_IN_HEAD, Free colon l := by
  cases hfind : find headerFlag (cstr data 0) with
  | none =>
    constructor
    · intro _ ls hls
      unfold headLines at hls
      rw [hfind] at hls
      cases hls
    · intro _
      exact safe_of_none fun mem => decodeHead_none (.inl hfind)
  | some k =>
    obtain ⟨title, ls, hh⟩ := exists_headed hfind
    rw [hh.split]
    constructor
    · intro hsafe ls' hls
      obtain rfl := Option.some.inj hls
      by_contra hnot
      obtain ⟨hlong, hall⟩ := not_or.mp hnot
      have hcolon : ∀ l ∈ ls.take MAX_ENTRY_IN_HEAD, colon <:+: l := by
        intro l hl
        by_contra hfree
        exact hall ⟨l, hl, hfree⟩
      obtain ⟨r, hr⟩ := hsafe.returns true
      rw [decodeHead_overflows hh (Nat.lt_of_not_le hlong) hcolon] at hr
      cases hr
    · intro hcond
      by_cases hbad : ∃ l ∈ ls.take MAX_ENTRY_IN_HEAD, Free colon l
      · refine safe_of_none fun mem => ?_
        cases mem with
        | false => exact decodeHead_none (.inr rfl)
        | true => exact decodeHead_rejects hh hbad
      have hroom := (hcond ls rfl).resolve_right hbad
      have hcolon : ∀ l ∈ ls, colon <:+: l := by
        intro l hl
        by_contra hfree
        rw [List.take_of_length_le hroom] at hbad
        exact hbad ⟨l, hl, hfree⟩
      obtain ⟨es, rfl, hparted⟩ := exists_entries hh.lines hcolon
      rw [List.length_map] at hroom
      obtain ⟨d, hd, hdecoded⟩ := decodeHead_accepts hh hparted hroom
      constructor
      · intro mem
        cases mem with
        | false => exact ⟨none, decodeHead_none (.inr rfl)⟩
        | true => exact ⟨_, hd⟩
      · intro mem d' hd'
        cases mem with
        | false =>
          rw [decodeHead_none (.inr rfl)] at hd'
          cases hd'
        | true =>
          rw [hd] at hd'
          cases hd'
          exact hdecoded

/-- A message with 33 lines `A: b`. -/
def longHead : Str := ascii "SBPFS/1.0 OK\r\n" ++ ended (List.replicate 33 (ascii "A: b")) ++ crlf

/-- The line behind the 32nd is written outside of the array. -/
theorem longHead_unsafe : ¬ Safe longHead := by
  intro h
  obtain ⟨r, hr⟩ := h.returns true
  have hstop : (decodeHead true longHead).toOption.isNone = true := by decide +kernel
  rw [hr] at hstop
  cases hstop

end Sbpfs.Wire.HeadSafety
