import Mathlib.Data.List.TakeWhile
import Sbpfs.Libc.RecvSpec

/-!
# Two readings of a message's length

`get_missing_len` looks for the words `Content-Length` in the received text, `decode_head` for an
entry of that name. They agree just when the first place with the words is a line with that
value.
-/
namespace Sbpfs.Libc.FramingLaws

open Sbpfs.Lib.Program Sbpfs.Lib.Search Sbpfs.Cfs.Layout
open Sbpfs.Wire.Head Sbpfs.Wire.Number Sbpfs.Libc.Request Sbpfs.Libc.Recv Sbpfs.Libc.RecvSpec

variable {b orig buf data : Str} {r n : Nat}

/-! ## Decoding only writes NUL bytes -/

/-- `buf` is `orig` with some bytes overwritten by NUL. -/
structure Cut (orig buf : Str) : Prop where
  length : buf.length = orig.length
  bytes : ∀ i : Nat, buf[i]? = orig[i]? ∨ buf[i]? = some 0

theorem Cut.refl (orig : Str) : Cut orig orig := ⟨rfl, fun _ => .inl rfl⟩

theorem Cut.set (h : Cut orig buf) (p : Nat) : Cut orig (buf.set p 0) := by
  refine ⟨by rw [List.length_set, h.length], fun i => ?_⟩
  by_cases hi : p = i
  · subst hi
    by_cases hlt : p < buf.length
    · exact .inr (List.getElem?_set_self hlt)
    · have hnone : (buf.set p 0)[p]? = none := by
        rw [List.getElem?_eq_none_iff, List.length_set]
        omega
      have horig : orig[p]? = none := by
        rw [List.getElem?_eq_none_iff, ← h.length]
        omega
      exact .inl (hnone.trans horig.symm)
  · rw [List.getElem?_set_ne hi]
    exact h.bytes i

theorem decodeLoop_cut {k prev : Nat} {entrys : List (Nat × Nat)} {q : Str × List (Nat × Nat)}
    (h : Cut orig data) (hloop : decodeLoop k data prev entrys = .ok (some q)) : Cut orig q.1 := by
  induction k generalizing data prev entrys with
  | zero => cases hloop
  | succ k ih =>
    rw [decodeLoop] at hloop
    cases hline : strstr data prev crlf with
    | none =>
      rw [hline] at hloop
      cases hloop
    | some next =>
      rw [hline] at hloop
      dsimp only at hloop
      by_cases hend : next = prev
      · rw [if_pos hend] at hloop
        cases hloop
        exact h
      · rw [if_neg hend] at hloop
        by_cases hroom : entrys.length < MAX_ENTRY_IN_HEAD
        · rw [if_pos hroom] at hloop
          cases hcolon : strstr (data.set next 0) prev colon with
          | none =>
            rw [hcolon] at hloop
            cases hloop
          | some p =>
            rw [hcolon] at hloop
            exact ih ((h.set next).set p) hloop
        · rw [if_neg hroom] at hloop
          cases hloop

/-- What `decode_head` accepts: the length of the head, and a copy that was only cut. -/
theorem decodeHead_cut {h : SbpfsHead} (hdec : decodeHead true b = .ok (some h)) :
    ∃ e, find headerFlag (cstr b 0) = some e ∧ h.headLen = e + headerFlag.length ∧
      Cut (b.take h.headLen ++ [0]) h.data := by
  have hfirst : strstr b 0 headerFlag = find headerFlag (cstr b 0) := by
    unfold strstr
    simp
  unfold decodeHead at hdec
  rw [hfirst] at hdec
  cases hfind : find headerFlag (cstr b 0) with
  | none =>
    rw [hfind] at hdec
    cases hdec
  | some e =>
    rw [hfind] at hdec
    dsimp only at hdec
    rw [if_pos rfl] at hdec
    cases htitle : strstr (b.take (e + headerFlag.length) ++ [0]) 0 crlf with
    | none =>
      rw [htitle] at hdec
      cases hdec
    | some p =>
      rw [htitle] at hdec
      dsimp only at hdec
      cases hloop : decodeLoop (b.take (e + headerFlag.length) ++ [0]).length
          ((b.take (e + headerFlag.length) ++ [0]).set p 0) (p + 2) [] with
      | error stop =>
        rw [hloop] at hdec
        cases hdec
      | ok q =>
        rw [hloop] at hdec
        cases q with
        | none => cases hdec
        | some q =>
          cases hdec
          exact ⟨e, rfl, rfl, decodeLoop_cut ((Cut.refl _).set p) hloop⟩

/-- A string of the cut copy stands in the original. -/
theorem Cut.infix (h : Cut orig buf) (p : Nat) : cstr buf p <+: orig.drop p := by
  have hpre : cstr buf p <+: buf.drop p := List.takeWhile_prefix _
  refine List.prefix_iff_getElem?.mpr fun i hi => ?_
  have hbuf : buf[p + i]? = some (cstr buf p)[i] := by
    rw [← List.getElem?_drop]
    exact List.prefix_iff_getElem?.mp hpre i hi
  have hne : (cstr buf p)[i] ≠ 0 := by
    have hall := List.mem_takeWhile_imp (List.getElem_mem hi)
    simpa using hall
  rw [List.getElem?_drop]
  rcases h.bytes (p + i) with heq | hzero
  · rw [← heq, hbuf]
  · rw [hbuf] at hzero
    exact absurd (Option.some.inj hzero) hne

/-! ## The words in the text -/

/-- A nonempty string without a byte does not reach to where that byte ends the list. -/
theorem infix_of_concat {s l : Str} {c : UInt8} (hs : c ∉ s) (h : s <:+: l ++ [c]) : s <:+: l := by
  rcases List.infix_concat_iff.mp h with hsuffix | hinfix
  · rcases List.suffix_concat_iff.mp hsuffix with rfl | ⟨t, rfl, -⟩
    · exact List.nil_infix
    · exact absurd (List.mem_append_right _ (List.mem_singleton_self c)) hs
  · exact hinfix

/-- An entry of that name has its words in the head. -/
theorem words_in_head {h : SbpfsHead} {v : Str} (hdec : decodeHead true b = .ok (some h))
    (hv : getHeadEntryValue h CONTENT_LEN = some v) : CONTENT_LEN <:+: b.take h.headLen := by
  obtain ⟨e, -, -, hcut⟩ := decodeHead_cut hdec
  obtain ⟨entry, hfind, -⟩ := Option.map_eq_some_iff.mp hv
  have hname : entry.name = CONTENT_LEN := by simpa using List.find?_some hfind
  obtain ⟨p, -, rfl⟩ := List.mem_map.mp (List.mem_of_find?_eq_some hfind)
  have hpre := hcut.infix p.1
  rw [show cstr h.data p.1 = CONTENT_LEN from hname] at hpre
  exact infix_of_concat (by decide) (hpre.isInfix.trans (List.drop_suffix _ _).isInfix)

/-- Where the decoder accepts a head with the entry, the search finds the words and a line. -/
theorem announcement_of_entry {h : SbpfsHead} {v : Str} (hdec : decodeHead true b = .ok (some h))
    (hv : getHeadEntryValue h CONTENT_LEN = some v) :
    ∃ line, announcement (cstr b 0) = some (h.headLen, line) := by
  obtain ⟨e, hflag, hlen, -⟩ := decodeHead_cut hdec
  have hend := find_length hflag
  have htext : (cstr b 0).take h.headLen = b.take h.headLen := by
    obtain ⟨t, ht⟩ : cstr b 0 <+: b := List.takeWhile_prefix _
    rw [hlen]
    calc (cstr b 0).take (e + headerFlag.length)
        = (cstr b 0 ++ t).take (e + headerFlag.length) :=
          (List.take_append_of_le_length hend).symm
      _ = b.take (e + headerFlag.length) := by rw [ht]
  obtain ⟨c, hc⟩ : ∃ c, find CONTENT_LEN (b.take h.headLen) = some c := by
    refine Option.ne_none_iff_exists'.mp fun hnone => ?_
    exact (find_eq_none (by decide)).mp hnone (words_in_head hdec hv)
  have hstart : find CONTENT_LEN (cstr b 0) = some c := by
    have hlong := find_append_right hc ((cstr b 0).drop h.headLen)
    rwa [← htext, List.take_append_drop] at hlong
  have hce : c ≤ e := by
    have hwords := find_length hc
    rw [← htext, List.length_take, hlen] at hwords
    have : CONTENT_LEN.length = 14 := by decide
    have : headerFlag.length = 4 := rfl
    omega
  obtain ⟨l, hl⟩ : ∃ l, find crlf ((cstr b 0).drop c) = some l := by
    refine Option.ne_none_iff_exists'.mp fun hnone => ?_
    refine (find_eq_none (by decide)).mp hnone ?_
    have htake : ((cstr b 0).take e).length = e := by
      rw [List.length_take]
      omega
    rw [find_eq hflag, List.append_assoc, List.drop_append_of_le_length (by omega)]
    exact ⟨((cstr b 0).take e).drop c, crlf ++ (cstr b 0).drop (e + headerFlag.length),
      by simp [headerFlag, crlf]⟩
  refine ⟨((cstr b 0).drop c).take l, ?_⟩
  unfold announcement
  rw [hflag, hstart]
  dsimp only
  rw [hl, hlen]
  rfl

/-! ## When the two readings agree -/

/-- The line behind the words, less the words and the two bytes behind them, has at most 63
bytes that read as `n`. -/
def Reads (line : Str) (n : Nat) : Prop := Sized line ∧ u64OfInt (atoll (line.drop 16)) = n

theorem missing_exact {k : Nat} {line : Str} (hn : u64OfInt (atoll (line.drop 16)) = n)
    (hlt : n + k < 2 ^ 63 + r) (hr : r ≤ BUF_SIZE) : missing k line r = (n : Int) + k - r := by
  unfold missing
  rw [hn]
  unfold s64 u64Sub u64
  simp only [BUF_SIZE] at hr
  split <;> omega

theorem missing_inv {k : Nat} {line : Str} (hk : k ≤ r) (hr : r ≤ BUF_SIZE)
    (h : missing k line r = (n : Int) + k - r) :
    u64OfInt (atoll (line.drop 16)) = n ∧ n + k < 2 ^ 63 + r := by
  have hlt : u64OfInt (atoll (line.drop 16)) < 2 ^ 64 := by
    unfold u64OfInt
    omega
  unfold missing s64 u64Sub u64 at h
  simp only [BUF_SIZE] at hr
  split at h <;> omega

/-- `get_missing_len` gives the bytes that are missing to the length which the decoded head has
just when the first line with the words, wherever it is, reads as that length. -/
theorem getMissingLen_iff {h : SbpfsHead} {v : Str} (hdec : decodeHead true b = .ok (some h))
    (hv : getHeadEntryValue h CONTENT_LEN = some v)
    (hhead : h.headLen ≤ r) (hr : r ≤ BUF_SIZE) :
    getMissingLen b r = .ok ((n : Int) + h.headLen - r) ↔
      ∃ line, announcement (cstr b 0) = some (h.headLen, line) ∧ Reads line n
        ∧ n + h.headLen < 2 ^ 63 + r := by
  obtain ⟨line, hline⟩ := announcement_of_entry hdec hv
  rw [getMissingLen_eq, hline]
  dsimp only
  constructor
  · intro hok
    by_cases hsized : Sized line
    · rw [if_pos hsized] at hok
      obtain ⟨hvalue, hlt⟩ := missing_inv hhead hr (Except.ok.inj hok)
      exact ⟨line, rfl, ⟨hsized, hvalue⟩, hlt⟩
    · rw [if_neg hsized] at hok
      cases hok
  · intro hreads
    obtain ⟨line', heq, ⟨hsized, hvalue⟩, hlt⟩ := hreads
    cases heq
    rw [if_pos hsized, missing_exact hvalue hlt hr]

/-- The head that `decode_head` finds in a text that it accepts. -/
def headOf (b : Str) : SbpfsHead :=
  match decodeHead true b with
  | .ok (some h) => h
  | _ => ⟨0, [], []⟩

/-- A reply as the control node sends it. -/
def plainReply : Str :=
  ascii "SBPFS/1.0 OK\r\nUser: CNode_0\r\nContent-Length: 5\r\n\r\nhello"

theorem getMissingLen_plain :
    getMissingLen plainReply 51 = .ok ((5 : Nat) + (50 : Nat) - (51 : Nat)) :=
  (@getMissingLen_iff plainReply 51 5 (headOf plainReply) (ascii "5") (by decide +kernel)
    (by decide +kernel) (by decide +kernel) (by decide +kernel)).mpr
    ⟨ascii "Content-Length: 5", by decide +kernel, by unfold Reads Sized; decide +kernel,
      by decide +kernel⟩

/-- A reply with the words in the text of an error. -/
def quotedReply : Str :=
  ascii "SBPFS/1.0 ERROR\r\nError-Detail: no Content-Length: 7\r\nContent-Length: 0\r\n\r\n"

/-- A reply with the words at the end of the text of an error. -/
def cutReply : Str :=
  ascii "SBPFS/1.0 ERROR\r\nError-Detail: Content-Length\r\nContent-Length: 0\r\n\r\n"

/-- Both replies are complete with an empty body; the length is wrong for the one, and the other
makes the copy of a negative length. -/
theorem getMissingLen_strays :
    (decodeHead true quotedReply = .ok (some (headOf quotedReply))
      ∧ getHeadEntryValue (headOf quotedReply) CONTENT_LEN = some (ascii "0")
      ∧ unsigned (ascii "0") = some 0 ∧ (headOf quotedReply).headLen = 74
      ∧ getMissingLen quotedReply 74 = .ok 7)
    ∧ decodeHead true cutReply = .ok (some (headOf cutReply))
      ∧ getHeadEntryValue (headOf cutReply) CONTENT_LEN = some (ascii "0")
      ∧ (headOf cutReply).headLen = 68
      ∧ getMissingLen cutReply 68 = .error .fault := by
  decide +kernel

end Sbpfs.Libc.FramingLaws
