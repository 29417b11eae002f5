import Sbpfs.Cnode.LoginLaws
import Sbpfs.Cnode.ReplyLaws

/-!
# The fields the control node reads

The head of a request of single lines is read as it was written: every line is a field of its
own, and the arguments come back in their order, the numbers among them with their values.
-/
namespace Sbpfs.Cnode.RequestFields

open Sbpfs.Lib.Search
open Sbpfs.Cfs.Layout (CStr s32)
open Sbpfs.Wire.Head Sbpfs.Wire.HeadSpec Sbpfs.Wire.Number Sbpfs.Libc.Request Sbpfs.Libc.RequestSpec
open Sbpfs.Cnode.Message Sbpfs.Cnode.FieldSpec Sbpfs.Cnode.LoginLaws
open Sbpfs.Cnode.Libcfs Sbpfs.Cnode.Dispatch Sbpfs.Cnode.ReplyLaws

/-! ## The lines of a request -/

/-- The entries behind the password. -/
def callEntries (method argc : String) (args : List Str) : List HeadEntry :=
  ⟨METHOD, ascii method⟩ :: ⟨ARGC, ascii argc⟩ :: argEntries args ++ [⟨CONTENT_LEN, ascii "0"⟩]

/-- The fields the control node reads. -/
def requestFields (l : Login) (method argc : String) (args : List Str) : Dict :=
  loginFields l ++ (callEntries method argc args).map fun e => (e.name, e.value)

/-- Lines of different names are all entered. -/
theorem readLines_all {es : List HeadEntry} {d : Dict}
    (hes : ∀ e ∈ es, NameOk e.name ∧ Free crlf e.value ∧ d.hasKey e.name = false)
    (hnodup : (es.map HeadEntry.name).Nodup) :
    readLines es d = some (d ++ es.map fun e => (e.name, e.value)) := by
  induction es generalizing d with
  | nil =>
    rw [List.map_nil, List.append_nil]
    rfl
  | cons e es ih =>
    obtain ⟨hname, hvalue, hnew⟩ := hes e (List.mem_cons_self ..)
    rw [List.map_cons, List.nodup_cons] at hnodup
    rw [readLines_cons hname hvalue, if_neg (by rw [hnew]; decide), ih ?_ hnodup.2]
    · simp
    · intro e' he'
      obtain ⟨hname', hvalue', hnew'⟩ := hes e' (List.mem_cons_of_mem _ he')
      refine ⟨hname', hvalue', ?_⟩
      rw [hasKey_append, hnew']
      simp only [Bool.false_or, decide_eq_false_iff_not]
      rintro heq
      exact hnodup.1 (heq ▸ List.mem_map_of_mem he')

theorem argName_inj {i j : Nat} (h : argName i = argName j) : i = j := by
  have hnum : numeral 10 i = numeral 10 j := List.append_cancel_left h
  have hval := congrArg (digitsValue 0) hnum
  rw [digitsValue_numeral, digitsValue_numeral] at hval
  exact Option.some.inj hval

theorem argNames (args : List Str) :
    (argEntries args).map HeadEntry.name = (List.range args.length).map argName := by
  apply List.ext_getElem
  · simp [argEntries]
  · intro i h h'
    simp [argEntries]

/-- A digit is none of the letters behind which the other names go on. -/
theorem argName_ne (i : Nat) : argName i ≠ METHOD ∧ argName i ≠ ARGC ∧ argName i ≠ CONTENT_LEN := by
  have hhead : (argName i).head? = some 0x41 := rfl
  refine ⟨fun h => ?_, fun h => ?_, fun h => ?_⟩
  · rw [h] at hhead
    exact absurd hhead (by decide)
  · have hnum : numeral 10 i = [0x63] :=
      List.append_cancel_left (h.trans (by decide : ARGC = ascii "Arg" ++ [0x63]))
    exact absurd (numeral_digits 0x63 (hnum ▸ List.mem_singleton.mpr rfl)) (by decide)
  · rw [h] at hhead
    exact absurd hhead (by decide)

/-- The entries behind the password have different names. -/
theorem callNames_nodup (method argc : String) (args : List Str) :
    ((callEntries method argc args).map HeadEntry.name).Nodup := by
  have hargs : ((List.range args.length).map argName).Nodup :=
    List.nodup_range.map fun _ _ => argName_inj
  have hne : ∀ k ∈ (List.range args.length).map argName, k ≠ METHOD ∧ k ≠ ARGC ∧
    k ≠ CONTENT_LEN := by
    intro k hk
    obtain ⟨i, -, rfl⟩ := List.mem_map.mp hk
    exact argName_ne i
  have hma : METHOD ≠ ARGC := by decide
  have hmc : METHOD ≠ CONTENT_LEN := by decide
  have hac : ARGC ≠ CONTENT_LEN := by decide
  simp only [callEntries, List.cons_append, List.map_cons, List.map_append, argNames, List.map_nil,
    List.nodup_cons, List.nodup_append, List.mem_cons, List.mem_append]
  refine ⟨?_, ?_, hargs, ⟨List.not_mem_nil, List.nodup_nil⟩, ?_⟩
  · rintro (h | h | h)
    · exact hma h
    · exact (hne _ h).1 rfl
    · exact hmc (h.resolve_right List.not_mem_nil)
  · rintro (h | h)
    · exact (hne _ h).2.1 rfl
    · exact hac (h.resolve_right List.not_mem_nil)
  · rintro k hk k' hk' rfl
    exact (hne k hk).2.2 (hk'.resolve_right List.not_mem_nil)

/-- None of the entries is one of those before. -/
theorem callEntries_new (l : Login) {method argc : String} {args : List Str} {e : HeadEntry}
    (he : e ∈ callEntries method argc args) : Dict.hasKey (loginFields l) e.name = false := by
  have hnew : ∀ {k : Str}, ascii "Protocol" ≠ k → USER ≠ k → PASS ≠ k →
      Dict.hasKey (loginFields l) k = false := by
    intro k hp hu hw
    simp [loginFields, Dict.hasKey, hp, hu, hw]
  rcases List.mem_append.mp he with he | he
  · rcases List.mem_cons.mp he with rfl | he
    · exact hnew (k := METHOD) (by decide) (by decide) (by decide)
    rcases List.mem_cons.mp he with rfl | he
    · exact hnew (k := ARGC) (by decide) (by decide) (by decide)
    · obtain ⟨i, hi, rfl⟩ := List.mem_mapIdx.mp he
      apply hnew <;>
      · intro h
        exact absurd (congrArg List.head? h) (by simp [argName, ascii, USER, PASS])
  · rw [List.mem_singleton.mp he]
    exact hnew (k := CONTENT_LEN) (by decide) (by decide) (by decide)

theorem readFields_all {l : Login} {method argc : String} {args : List Str} (hl : OneLine l)
    (hmethod : Free crlf (ascii method)) (hargc : Free crlf (ascii argc))
    (hargs : ∀ a ∈ args, Free crlf a) :
    readFields (PROTOCOL ++ crlf ++ entryLines (requestEntries l method argc args) ++ crlf)
      = some (requestFields l method argc args) := by
  have hline : ∀ e ∈ callEntries method argc args, NameOk e.name ∧ Free crlf e.value := by
    intro e he
    rcases List.mem_append.mp he with he | he
    · rcases List.mem_cons.mp he with rfl | he
      · exact ⟨⟨(by decide : Free colon METHOD), (by decide : Free crlf METHOD)⟩, hmethod⟩
      rcases List.mem_cons.mp he with rfl | he
      · exact ⟨⟨(by decide : Free colon ARGC), (by decide : Free crlf ARGC)⟩, hargc⟩
      · obtain ⟨hname, hvalue, -⟩ := argEntries_free hargs e he
        exact ⟨hname, hvalue⟩
    · rw [List.mem_singleton.mp he]
      exact ⟨⟨(by decide : Free colon CONTENT_LEN), (by decide : Free crlf CONTENT_LEN)⟩,
        (by decide : Free crlf (ascii "0"))⟩
  rw [readFields_login hl]
  apply readLines_all _ (callNames_nodup method argc args)
  intro e he
  exact ⟨(hline e he).1, (hline e he).2, callEntries_new l he⟩

/-- The first field of a name is its value. -/
theorem get_of_mem {d : Dict} {k v : Str} (h : (k, v) ∈ d) (hnodup : (d.map Prod.fst).Nodup) :
    d.get k = some v := by
  induction d with
  | nil => cases h
  | cons f d ih =>
    rw [List.map_cons, List.nodup_cons] at hnodup
    unfold Dict.get
    rcases List.mem_cons.mp h with rfl | h
    · rw [List.find?_cons_of_pos (by simp)]
      rfl
    · have hne : f.1 ≠ k := fun heq => hnodup.1 (heq ▸ List.mem_map_of_mem h)
      rw [List.find?_cons_of_neg (by simpa using hne)]
      exact ih h hnodup.2

theorem mapM_range {α : Type} {f : Nat → Option α} {xs : List α}
    (h : ∀ i a, xs[i]? = some a → f i = some a) : (List.range xs.length).mapM f = some xs := by
  induction xs using List.reverseRecOn with
  | nil => rfl
  | append_singleton xs a ih =>
    have hlast : f xs.length = some a := h xs.length a (by simp)
    have hinit : (List.range xs.length).mapM f = some xs := by
      apply ih
      intro i b hb
      apply h
      rw [List.getElem?_append_left (List.getElem?_eq_some_iff.mp hb).1]
      exact hb
    rw [List.length_append, List.length_singleton, List.range_succ, List.mapM_append, hinit]
    simp [hlast]

theorem requestFields_nodup (l : Login) (method argc : String) (args : List Str) :
    ((requestFields l method argc args).map Prod.fst).Nodup := by
  have hmap : ((callEntries method argc args).map fun e => (e.name, e.value)).map Prod.fst
      = (callEntries method argc args).map HeadEntry.name := by
    rw [List.map_map]
    rfl
  unfold requestFields
  rw [List.map_append, hmap, List.nodup_append]
  refine ⟨?_, callNames_nodup method argc args, ?_⟩
  · show [ascii "Protocol", USER, PASS].Nodup
    decide
  · rintro k hk k' hk' rfl
    obtain ⟨e, he, rfl⟩ := List.mem_map.mp hk'
    have hnew := callEntries_new l he
    rw [hasKey_iff.mpr hk] at hnew
    cases hnew

section Fields

variable (l : Login) (method argc : String) (args : List Str)

theorem requestFields_get {e : HeadEntry} (he : e ∈ callEntries method argc args) :
    (requestFields l method argc args).get e.name = some e.value := by
  apply get_of_mem _ (requestFields_nodup l method argc args)
  exact List.mem_append_right _ (List.mem_map_of_mem he)

theorem requestFields_method :
    (requestFields l method argc args).get METHOD = some (ascii method) :=
  requestFields_get (e := ⟨METHOD, ascii method⟩) l method argc args (List.mem_cons_self ..)

theorem requestFields_argc : (requestFields l method argc args).get ARGC = some (ascii argc) :=
  requestFields_get (e := ⟨ARGC, ascii argc⟩) l method argc args
    (List.mem_cons_of_mem _ (List.mem_cons_self ..))

theorem requestFields_args :
    argsOf (requestFields l method argc args) (List.range args.length) = some args := by
  apply mapM_range
  intro i a hi
  obtain ⟨hlt, rfl⟩ := List.getElem?_eq_some_iff.mp hi
  apply requestFields_get (e := ⟨argName i, args[i]⟩) l method argc args
  apply List.mem_append_left
  apply List.mem_cons_of_mem
  apply List.mem_cons_of_mem
  exact List.mem_mapIdx.mpr ⟨i, hlt, rfl⟩

end Fields

/-! ## Numbers in arguments -/

theorem free_crlf {s : Str} (h : ∀ c ∈ s, c ≠ 0x0d) : Free crlf s := by
  rintro ⟨p, q, rfl⟩
  exact h 0x0d (by simp [crlf]) rfl

theorem numeral_no_cr {base n : Nat} (h : 1 < base) (h' : base ≤ 16) :
    ∀ c ∈ numeral base n, c ≠ 0x0d := by
  have hdigit : ∀ d < 16, digitChar d ≠ 0x0d := by decide
  intro c hc
  unfold numeral at hc
  split at hc
  · rw [List.mem_singleton.mp hc]
    decide
  · obtain ⟨d, hd, rfl⟩ := List.mem_map.mp hc
    exact hdigit d (lt_of_lt_of_le (Nat.digits_lt_base h (List.mem_reverse.mp hd)) h')

theorem zeroPad_no_cr {width : Nat} {s : Str} (h : ∀ c ∈ s, c ≠ 0x0d) :
    ∀ c ∈ zeroPad width s, c ≠ 0x0d := by
  intro c hc
  rcases List.mem_append.mp hc with hc | hc
  · rw [List.eq_of_mem_replicate hc]
    decide
  · exact h c hc

theorem decimal_free (width : Nat) (z : Int) : Free crlf (decimal width z) := by
  have hnum : ∀ w, ∀ c ∈ zeroPad w (numeral 10 z.natAbs), c ≠ 0x0d :=
    fun w => zeroPad_no_cr (numeral_no_cr (by decide) (by decide))
  apply free_crlf
  intro c hc
  unfold decimal at hc
  split at hc
  · rcases List.mem_cons.mp hc with rfl | hc
    · decide
    · exact hnum _ c hc
  · exact hnum _ c hc

theorem hex_free (width n : Nat) : Free crlf (hex width n) :=
  free_crlf (zeroPad_no_cr (numeral_no_cr (by decide) (by decide)))

theorem s32_small {n : Nat} (h : n < 256) : s32 n = n := by
  have hmod : n % 2 ^ 32 = n := Nat.mod_eq_of_lt (by omega)
  unfold s32
  rw [hmod, if_pos (by omega)]

theorem isByte_nat {n : Nat} (h : n < 256) : IsByte (n : Int) := by
  unfold IsByte
  omega

/-- A number that is printed as a signed one is read back. -/
theorem argK_s64 (n : UInt64) : argK (s64 n.toNat) = n := by
  have hlt := n.toNat_lt
  have hmod : s64 n.toNat % 2 ^ 64 = n.toNat := by
    unfold s64
    split <;> omega
  unfold argK
  rw [hmod, Int.toNat_natCast]
  exact UInt64.ofNat_toNat

theorem cstrOf_bytesOf (p : CStr) : cstrOf (bytesOf p) = some p := by
  induction p with
  | nil => rfl
  | cons c p ih =>
    obtain ⟨c, hc⟩ := c
    show cstrOf (c :: bytesOf p) = _
    rw [cstrOf, dif_neg hc, ih]
    rfl

/-- The bytes of a text without NUL are the text. -/
theorem bytesOf_cstrOf {s : Str} {p : CStr} (h : cstrOf s = some p) : bytesOf p = s := by
  induction s generalizing p with
  | nil =>
    cases h
    rfl
  | cons c s ih =>
    rw [cstrOf] at h
    by_cases hc : c = 0
    · rw [dif_pos hc] at h
      cases h
    · rw [dif_neg hc] at h
      obtain ⟨q, hq, rfl⟩ := Option.map_eq_some_iff.mp h
      exact congrArg (c :: ·) (ih hq)

end Sbpfs.Cnode.RequestFields
