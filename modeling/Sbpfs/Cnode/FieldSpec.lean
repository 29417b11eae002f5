import Mathlib.Data.List.TakeWhile
import Sbpfs.Libc.RequestSpec
import Sbpfs.Wire.HeadSpec
import Sbpfs.Cnode.Connection

/-!
# What a path can do to the fields of a request

A request is a list of lines, and each entry makes one line for every line of its value.
The control node reads the lines up to the first empty one, and of the lines with the same
name the first one counts.
-/
namespace Sbpfs.Cnode.FieldSpec

open Sbpfs.Lib.Program Sbpfs.Lib.Search Sbpfs.Cfs.Layout
open Sbpfs.Wire.Head Sbpfs.Wire.HeadSpec Sbpfs.Libc.Request Sbpfs.Libc.RequestSpec
open Sbpfs.Cnode.Message

/-! ## The lines of a request -/

/-- The lines that entries make. -/
def lines (es : List HeadEntry) : List Str := es.flatMap fun e => split crlf (entryLine e)

theorem split_entryLines (es : List HeadEntry) (t : Str) :
    split crlf (entryLines es ++ t) = lines es ++ split crlf t := by
  induction es with
  | nil => rfl
  | cons e es ih =>
    have hshape : entryLines (e :: es) ++ t = entryLine e ++ crlf ++ (entryLines es ++ t) := by
      simp [entryLines]
    rw [hshape, split_append crlf_ne crlf_borderless, ih]
    simp [lines]

theorem lines_append (es es' : List HeadEntry) : lines (es ++ es') = lines es ++ lines es' := by
  simp [lines]

theorem protocol_free : Free crlf PROTOCOL := by decide

/-- The bytes of a request and the lines they are made of. -/
theorem split_request (es : List HeadEntry) :
    split crlf (PROTOCOL ++ crlf ++ entryLines es ++ crlf)
      = PROTOCOL :: (lines es ++ [[], []]) := by
  have hend : split crlf ([] ++ crlf ++ []) = [[], []] := by
    rw [split_append crlf_ne crlf_borderless, split_free crlf_ne (free_nil crlf_ne)]
    rfl
  rw [List.append_assoc (PROTOCOL ++ crlf), split_append crlf_ne crlf_borderless,
    split_free crlf_ne protocol_free, split_entryLines]
  rw [List.nil_append, List.append_nil] at hend
  rw [hend]
  rfl

/-- The lines up to an empty one, and what is left behind them. -/
theorem cut_lines (ls : List Str) :
    ∃ r rs, ls ++ [[], []] = ls.takeWhile (· ≠ []) ++ [] :: r :: rs := by
  induction ls with
  | nil => exact ⟨[], [], rfl⟩
  | cons l ls ih =>
    obtain ⟨r, rs, h⟩ := ih
    by_cases hl : l = []
    · subst hl
      cases ls with
      | nil => exact ⟨[], [[]], rfl⟩
      | cons l' ls => exact ⟨l', ls ++ [[], []], rfl⟩
    · refine ⟨r, rs, ?_⟩
      rw [List.takeWhile_cons_of_pos (by simpa using hl), List.cons_append, h, List.cons_append]

/-- The control node reads the fields from the lines before the first empty one. -/
theorem readFields_request (es : List HeadEntry) :
    readFields (PROTOCOL ++ crlf ++ entryLines es ++ crlf)
      = ((lines es).takeWhile (· ≠ [])).foldlM parseLine [(ascii "Protocol", PROTOCOL)] := by
  obtain ⟨p, ps, hsplit, hfree, hjoin⟩ :=
    split_spec crlf_ne (PROTOCOL ++ crlf ++ entryLines es ++ crlf)
  rw [split_request] at hsplit
  obtain ⟨r, rs, hcut⟩ := cut_lines (lines es)
  cases hsplit
  rw [hcut] at hfree hjoin
  have hkept : ∀ x ∈ PROTOCOL :: (lines es).takeWhile (· ≠ []), Free crlf x := by
    intro x hx
    refine hfree x ?_
    rcases List.mem_cons.mp hx with rfl | hx
    · exact List.mem_cons_self ..
    · exact List.mem_cons_of_mem _ (List.mem_append_left _ hx)
  have hnil : [] ∉ (lines es).takeWhile (· ≠ []) := fun h => by
    simpa using List.mem_takeWhile_imp h
  unfold readFields splitMessage
  rw [hjoin, headerFlag_eq, splitN_double_join crlf_borderless hkept hnil]
  unfold parseHead
  dsimp only
  rw [split_join crlf_ne crlf_borderless hkept]
  rfl

/-! ## Dictionaries -/

theorem get_isSome (d : Dict) (k : Str) : (d.get k).isSome = d.hasKey k := by
  unfold Dict.get Dict.hasKey
  induction d with
  | nil => rfl
  | cons f d ih =>
    by_cases hf : f.1 = k
    · simp [hf]
    · simpa [hf] using ih

theorem get_append_of_hasKey {d : Dict} {k : Str} (h : d.hasKey k = true) (d' : Dict) :
    (d ++ d').get k = d.get k := by
  rw [← get_isSome] at h
  unfold Dict.get at h ⊢
  rw [Option.isSome_map] at h
  rw [List.find?_append]
  cases hfind : d.find? fun f => f.1 = k with
  | none => simp [hfind] at h
  | some f => rfl

theorem get_append_of_not {d : Dict} {k : Str} (h : d.hasKey k = false) (d' : Dict) :
    (d ++ d').get k = d'.get k := by
  rw [← get_isSome] at h
  unfold Dict.get at h ⊢
  rw [Option.isSome_map] at h
  rw [List.find?_append]
  cases hfind : d.find? fun f => f.1 = k with
  | none => rfl
  | some f => simp [hfind] at h

/-- Two dictionaries with the same keys, and the same values but for the key `k`. -/
structure SameBut (k : Str) (d d' : Dict) : Prop where
  keys : ∀ key, d.hasKey key = d'.hasKey key
  values : ∀ key, key ≠ k → d.get key = d'.get key

theorem SameBut.refl (k : Str) (d : Dict) : SameBut k d d := ⟨fun _ => rfl, fun _ _ => rfl⟩

theorem hasKey_append (d : Dict) (key value k : Str) :
    Dict.hasKey (d ++ [(key, value)]) k = (d.hasKey k || decide (key = k)) := by
  simp [Dict.hasKey]

/-- A new field, of which the two values may differ if it is the one of the key `k`. -/
theorem SameBut.add {k key value value' : Str} {d d' : Dict} (h : SameBut k d d')
    (hvalue : key ≠ k → value = value') :
    SameBut k (d ++ [(key, value)]) (d' ++ [(key, value')]) := by
  refine ⟨fun x => ?_, fun x hx => ?_⟩
  · rw [hasKey_append, hasKey_append, h.keys]
  · cases hd : d.hasKey x with
    | true =>
      rw [get_append_of_hasKey hd, get_append_of_hasKey (h.keys x ▸ hd), h.values x hx]
    | false =>
      rw [get_append_of_not hd, get_append_of_not (h.keys x ▸ hd)]
      by_cases hxk : key = x
      · subst hxk
        rw [hvalue hx]
      · simp [Dict.get, hxk]

/-- The fields of `d` are still there with their values. -/
def Kept (d d' : Dict) : Prop := ∀ k, d.hasKey k = true → d'.hasKey k = true ∧ d'.get k = d.get k

theorem Kept.refl (d : Dict) : Kept d d := fun _ h => ⟨h, rfl⟩

theorem Kept.trans {d d' d'' : Dict} (h : Kept d d') (h' : Kept d' d'') : Kept d d'' := by
  intro k hk
  obtain ⟨h1, h2⟩ := h k hk
  obtain ⟨h3, h4⟩ := h' k h1
  exact ⟨h3, h4.trans h2⟩

/-! ## Reading lines -/

/-- What one line does to a dictionary. -/
theorem parseLine_cases {d d' : Dict} {line : Str} (h : parseLine d line = some d') :
    d' = d ∨ ∃ key value, d.hasKey key = false ∧ d' = d ++ [(key, value)] := by
  unfold parseLine at h
  split at h
  · cases h
  · split at h
    · cases h
      exact .inl rfl
    · cases h
  · split at h
    · cases h
      exact .inl rfl
    · rename_i hkey
      cases h
      exact .inr ⟨_, _, by simpa using hkey, rfl⟩

theorem parseLine_kept {d d' : Dict} {line : Str} (h : parseLine d line = some d') : Kept d d' := by
  rcases parseLine_cases h with rfl | ⟨key, value, -, rfl⟩
  · exact Kept.refl _
  · intro k hk
    refine ⟨?_, get_append_of_hasKey hk _⟩
    rw [hasKey_append, hk]
    rfl

theorem parseLines_kept {d d' : Dict} {ls : List Str} (h : ls.foldlM parseLine d = some d') :
    Kept d d' := by
  induction ls generalizing d with
  | nil =>
    cases h
    exact Kept.refl _
  | cons l ls ih =>
    rw [List.foldlM_cons, Option.bind_eq_bind, Option.bind_eq_some_iff] at h
    obtain ⟨d₁, h₁, h₂⟩ := h
    exact (parseLine_kept h₁).trans (ih h₂)

/-- A line keeps two dictionaries alike but for one key. -/
theorem parseLine_sameBut {k line : Str} {d d' : Dict} (h : SameBut k d d') :
    Option.Rel (SameBut k) (parseLine d line) (parseLine d' line) := by
  unfold parseLine
  cases hsplit : splitN colon 1 line with
  | nil => exact .none
  | cons key rest =>
    cases rest with
    | nil =>
      dsimp only
      rw [h.keys key]
      split
      · exact .some h
      · exact .none
    | cons value rest =>
      dsimp only
      rw [h.keys key]
      split
      · exact .some h
      · exact .some (h.add fun _ => rfl)

theorem parseLines_sameBut {k : Str} {d d' : Dict} (h : SameBut k d d') (ls : List Str) :
    Option.Rel (SameBut k) (ls.foldlM parseLine d) (ls.foldlM parseLine d') := by
  induction ls generalizing d d' with
  | nil => exact .some h
  | cons l ls ih =>
    rw [List.foldlM_cons, List.foldlM_cons]
    have hline := @parseLine_sameBut _ l _ _ h
    generalize parseLine d l = a at hline ⊢
    generalize parseLine d' l = b at hline ⊢
    cases hline with
    | none => exact .none
    | some hrel => exact ih hrel

/-- The line of a field. -/
theorem parseLine_field (d : Dict) {name : Str} (hname : Free colon name) (value : Str) :
    parseLine d (name ++ colon ++ value)
      = some (if d.hasKey name then d else d ++ [(name, value)]) := by
  have hsplit : splitN colon 1 (name ++ colon ++ value) = [name, value] :=
    splitN_append colon_borderless hname 0
  rw [parseLine, hsplit]
  dsimp only
  split <;> rfl

theorem hasKey_field (d : Dict) (name value : Str) :
    Dict.hasKey (if d.hasKey name then d else d ++ [(name, value)]) name = true := by
  split
  · assumption
  · rw [hasKey_append]
    simp

/-! ## The fields of entries -/

/-- A name that can stand before a value. -/
structure NameOk (name : Str) : Prop where
  colon : Free colon name
  line : Free crlf name

/-- The first line of an entry is its name and the first line of its value. -/
theorem split_entryLine {name : Str} (h : NameOk name) (value : Str) :
    ∃ v vs, split crlf (entryLine ⟨name, value⟩) = (name ++ colon ++ v) :: vs := by
  obtain ⟨v, vs, hv, -, -⟩ := split_spec crlf_ne value
  have hsep : split crlf (colon ++ value) = (colon ++ v) :: vs := by
    refine split_cons crlf_ne (fun hp => ?_) (split_cons crlf_ne (fun hp => ?_) hv)
    · exact absurd (List.cons_prefix_cons.mp hp).1 (by decide)
    · exact absurd (List.cons_prefix_cons.mp hp).1 (by decide)
  have hname : ∀ s : Str, Free crlf s →
      split crlf (s ++ (colon ++ value)) = (s ++ (colon ++ v)) :: vs := by
    intro s hs
    induction s with
    | nil => exact hsep
    | cons c s ih =>
      refine split_cons crlf_ne (fun hp => ?_) (ih hs.tail)
      -- a line end at the seam would have to begin with the colon
      cases s with
      | nil =>
        have hp' : crlf <+: c :: 0x3a :: 0x20 :: value := hp
        rw [crlf, List.cons_prefix_cons, List.cons_prefix_cons] at hp'
        exact absurd hp'.2.1 (by decide)
      | cons c' s =>
        have hp' : crlf <+: c :: c' :: (s ++ (colon ++ value)) := hp
        rw [crlf, List.cons_prefix_cons, List.cons_prefix_cons] at hp'
        refine hs (List.IsPrefix.isInfix ?_)
        rw [← hp'.1, ← hp'.2.1]
        exact ⟨s, rfl⟩
  refine ⟨v, vs, ?_⟩
  have h := hname name h.line
  simpa [entryLine] using h

theorem split_entryLine_free {name value : Str} (h : NameOk name) (hv : Free crlf value) :
    split crlf (entryLine ⟨name, value⟩) = [name ++ colon ++ value] := by
  have hvalue : Free crlf (colon ++ value) := by
    refine free_append (by decide) hv fun hs => ?_
    exact absurd hs.1 (by decide)
  have hline : Free crlf (name ++ (colon ++ value)) := by
    refine free_append h.line hvalue fun hs => ?_
    exact absurd hs.2 (by simp [colon])
  rw [← List.append_assoc] at hline
  exact split_free crlf_ne hline

/-- The names of entries whose lines have all been read are keys. -/
theorem hasKey_lines {es : List HeadEntry} {d d' : Dict} (hes : ∀ e ∈ es, NameOk e.name)
    (h : (lines es).foldlM parseLine d = some d') : ∀ e ∈ es, d'.hasKey e.name = true := by
  induction es generalizing d with
  | nil => simp
  | cons e es ih =>
    intro e' he'
    have hsplit : lines (e :: es) = split crlf (entryLine e) ++ lines es := by simp [lines]
    rw [hsplit, List.foldlM_append, Option.bind_eq_bind, Option.bind_eq_some_iff] at h
    obtain ⟨d₁, h₁, h₂⟩ := h
    rcases List.mem_cons.mp he' with rfl | he'
    · have hname := hes e' (List.mem_cons_self ..)
      obtain ⟨v, vs, hv⟩ := split_entryLine hname e'.value
      rw [hv, List.foldlM_cons, parseLine_field d hname.colon] at h₁
      exact (parseLines_kept h₂ _ (parseLines_kept h₁ _ (hasKey_field d _ _)).1).1
    · exact ih (fun e he => hes e (List.mem_cons_of_mem _ he)) h₂ e' he'

/-- Requests that differ in the value of one entry, which is one line in both. -/
theorem sameBut_fields {pre post : List HeadEntry} {name v v' : Str} (hname : NameOk name)
    (hv : Free crlf v) (hv' : Free crlf v') (d : Dict) :
    Option.Rel (SameBut name)
      (((lines (pre ++ ⟨name, v⟩ :: post)).takeWhile (· ≠ [])).foldlM parseLine d)
      (((lines (pre ++ ⟨name, v'⟩ :: post)).takeWhile (· ≠ [])).foldlM parseLine d) := by
  have hshape : ∀ x, Free crlf x → lines (pre ++ ⟨name, x⟩ :: post)
      = lines pre ++ (name ++ colon ++ x) :: lines post := by
    intro x hx
    rw [lines_append]
    simp [lines, split_entryLine_free hname hx]
  have htake : ∀ x : Str, ((name ++ colon ++ x) :: lines post).takeWhile (· ≠ [])
      = (name ++ colon ++ x) :: (lines post).takeWhile (· ≠ []) := fun x => by
    rw [List.takeWhile_cons_of_pos (by simp [colon])]
  rw [hshape v hv, hshape v' hv', List.takeWhile_append, List.takeWhile_append]
  split
  · rw [htake, htake, List.foldlM_append, List.foldlM_append]
    cases (lines pre).foldlM parseLine d with
    | none => exact .none
    | some d₁ =>
      change Option.Rel _ (List.foldlM _ d₁ _) (List.foldlM _ d₁ _)
      rw [List.foldlM_cons, List.foldlM_cons, parseLine_field d₁ hname.colon,
        parseLine_field d₁ hname.colon]
      refine parseLines_sameBut ?_ _
      split
      · exact SameBut.refl _ _
      · exact (SameBut.refl _ _).add fun h => absurd rfl h
  · cases ((lines pre).takeWhile (· ≠ [])).foldlM parseLine d with
    | none => exact .none
    | some d₁ => exact .some (SameBut.refl _ _)

/-- Requests that begin with the same entries: what was read of these is the same. -/
theorem same_before {pre post post' : List HeadEntry} (hpre : ∀ e ∈ pre, NameOk e.name)
    {d d₁ d₂ : Dict}
    (h₁ : ((lines (pre ++ post)).takeWhile (· ≠ [])).foldlM parseLine d = some d₁)
    (h₂ : ((lines (pre ++ post')).takeWhile (· ≠ [])).foldlM parseLine d = some d₂) :
    ∀ e ∈ pre, d₁.get e.name = d₂.get e.name := by
  intro e he
  rw [lines_append, List.takeWhile_append] at h₁ h₂
  split at h₁
  · rename_i hall
    rw [if_pos hall] at h₂
    rw [List.foldlM_append, Option.bind_eq_bind, Option.bind_eq_some_iff] at h₁ h₂
    obtain ⟨d₀, h₀, h₁⟩ := h₁
    obtain ⟨d₀', h₀', h₂⟩ := h₂
    rw [h₀] at h₀'
    cases h₀'
    have hkey := hasKey_lines hpre h₀ e he
    rw [(parseLines_kept h₁ _ hkey).2, (parseLines_kept h₂ _ hkey).2]
  · rename_i hall
    rw [if_neg hall] at h₂
    rw [h₁] at h₂
    cases h₂
    rfl

/-! ## Requests -/

/-- What the control node reads from the message of a request, if one was built. -/
def fieldsOf : Except Stop (Option Str) → Option Dict
  | .ok (some msg) => readFields msg
  | _ => none

theorem headEntries_names (l : Login) (method argc : String) :
    ∀ e ∈ headEntries l method argc, NameOk e.name := by
  intro e he
  simp only [headEntries, List.mem_cons, List.not_mem_nil, or_false] at he
  rcases he with rfl | rfl | rfl | rfl
  · exact ⟨(by decide : Free colon USER), (by decide : Free crlf USER)⟩
  · exact ⟨(by decide : Free colon PASS), (by decide : Free crlf PASS)⟩
  · exact ⟨(by decide : Free colon METHOD), (by decide : Free crlf METHOD)⟩
  · exact ⟨(by decide : Free colon ARGC), (by decide : Free crlf ARGC)⟩

theorem requestEntries_append (l : Login) (method argc : String) (pre : List Str) (v : Str)
    (post : List Str) :
    requestEntries l method argc (pre ++ v :: post)
      = (headEntries l method argc ++ argEntries pre) ++
      ⟨argName pre.length, v⟩ :: (post.mapIdx (fun i a => ⟨argName (i + 1 + pre.length), a⟩) ++
        [⟨CONTENT_LEN, ascii "0"⟩]) := by
  unfold requestEntries argEntries
  rw [List.mapIdx_append, List.mapIdx_cons, Nat.zero_add]
  simp only [List.append_assoc, List.cons_append]

theorem fieldsOf_request {l : Login} (hfit : Fits l) (method argc : String) {args : List Str}
    (hargs : args.length ≤ 27) :
    fieldsOf (request l method argc args)
      = ((lines (requestEntries l method argc args)).takeWhile (· ≠ [])).foldlM parseLine
          [(ascii "Protocol", PROTOCOL)] := by
  rw [request_msg hfit method argc hargs]
  exact readFields_request _

theorem fieldsOf_fault {l : Login} (hfit : ¬ Fits l) (method argc : String) (args : List Str) :
    fieldsOf (request l method argc args) = none := by
  rw [request_fault hfit]
  rfl

/-- Two requests that differ in one argument, which holds no line end in either. -/
theorem request_sameBut {l : Login} {method argc : String} {pre post : List Str} {v v' : Str}
    (hname : NameOk (argName pre.length)) (hlen : pre.length + post.length ≤ 26)
    (hv : Free crlf v) (hv' : Free crlf v') :
    Option.Rel (SameBut (argName pre.length)) (fieldsOf (request l method argc (pre ++ v :: post)))
      (fieldsOf (request l method argc (pre ++ v' :: post))) := by
  by_cases hfit : Fits l
  · rw [fieldsOf_request hfit _ _ (by simp; omega), fieldsOf_request hfit _ _ (by simp; omega),
      requestEntries_append, requestEntries_append]
    exact sameBut_fields hname hv hv' _
  · rw [fieldsOf_fault hfit, fieldsOf_fault hfit]
    exact .none

/-- Two requests that differ in one argument agree on every field in front of it. -/
theorem request_before {l : Login} {method argc : String} {pre post : List Str} {v v' : Str}
    {d d' : Dict} (hnames : ∀ i < pre.length, NameOk (argName i))
    (hlen : pre.length + post.length ≤ 26)
    (h : fieldsOf (request l method argc (pre ++ v :: post)) = some d)
    (h' : fieldsOf (request l method argc (pre ++ v' :: post)) = some d') :
    ∀ e ∈ headEntries l method argc ++ argEntries pre, d.get e.name = d'.get e.name := by
  have hfit : Fits l := by
    by_contra hfit
    rw [fieldsOf_fault hfit] at h
    cases h
  have hpre : ∀ e ∈ headEntries l method argc ++ argEntries pre, NameOk e.name := by
    intro e he
    rcases List.mem_append.mp he with he | he
    · exact headEntries_names l method argc e he
    · obtain ⟨i, hi, rfl⟩ := List.mem_mapIdx.mp he
      exact hnames i hi
  rw [fieldsOf_request hfit _ _ (by simp; omega), requestEntries_append] at h h'
  exact same_before hpre h h'

/-! ## Calls that send a path -/

/-- A call that sends a path, with its other arguments; `moveTo` sends the destination of a
move, `moveFrom` the source. -/
inductive PathCall where
  | openFile (oflag : UInt32) (mode : UInt16)
  | stat
  | opendir
  | mkdir
  | rmdir
  | remove
  | chmod (mode : UInt16)
  | chown (newowner : CStr)
  | moveTo (src : CStr)
  | moveFrom (dst : CStr)

def PathCall.send (l : Login) : PathCall → CStr → Except Stop (Option Str)
  | .openFile oflag mode, path => sbpOpen l path oflag mode
  | .stat, path => sbpStat l path
  | .opendir, path => sbpOpendir l path
  | .mkdir, path => sbpMkdir l path
  | .rmdir, path => sbpRmdir l path
  | .remove, path => sbpRemove l path
  | .chmod mode, path => sbpChmod l path mode
  | .chown newowner, path => sbpChown l path newowner
  | .moveTo src, path => sbpMove l path src
  | .moveFrom dst, path => sbpMove l dst path

/-- The field that carries the path. -/
def PathCall.field : PathCall → Str
  | .moveFrom _ => argName 1
  | _ => argName 0

/-- The fields that stand in front of the path. -/
def PathCall.before : PathCall → List Str
  | .moveFrom _ => [USER, PASS, METHOD, ARGC, argName 0]
  | _ => [USER, PASS, METHOD, ARGC]

theorem send_shape (c : PathCall) (l : Login) : ∃ method argc pre post,
    (∀ path, c.send l path = request l method argc (pre ++ bytesOf path :: post)) ∧
    c.field = argName pre.length ∧ pre.length ≤ 1 ∧ post.length ≤ 2 ∧
    c.before = (headEntries l method argc ++ argEntries pre).map HeadEntry.name := by
  cases c with
  | openFile oflag mode =>
    exact ⟨"OPEN", "3", [], _, fun _ => rfl, rfl, Nat.zero_le _, Nat.le_refl _, rfl⟩
  | stat => exact ⟨"STAT", "1", [], [], fun _ => rfl, rfl, Nat.zero_le _, Nat.zero_le _, rfl⟩
  | opendir => exact ⟨"OPENDIR", "1", [], [], fun _ => rfl, rfl, Nat.zero_le _, Nat.zero_le _, rfl⟩
  | mkdir => exact ⟨"MKDIR", "1", [], [], fun _ => rfl, rfl, Nat.zero_le _, Nat.zero_le _, rfl⟩
  | rmdir => exact ⟨"RMDIR", "1", [], [], fun _ => rfl, rfl, Nat.zero_le _, Nat.zero_le _, rfl⟩
  | remove => exact ⟨"REMOVE", "1", [], [], fun _ => rfl, rfl, Nat.zero_le _, Nat.zero_le _, rfl⟩
  | chmod mode =>
    exact ⟨"CHMOD", "2", [], [_], fun _ => rfl, rfl, Nat.zero_le _, Nat.le_succ 1, rfl⟩
  | chown newowner =>
    exact ⟨"CHOWN", "2", [], [_], fun _ => rfl, rfl, Nat.zero_le _, Nat.le_succ 1, rfl⟩
  | moveTo src => exact ⟨"MOVE", "2", [], [_], fun _ => rfl, rfl, Nat.zero_le _, Nat.le_succ 1, rfl⟩
  | moveFrom dst =>
    exact ⟨"MOVE", "2", [bytesOf dst], [], fun _ => rfl, rfl, Nat.le_refl _, Nat.zero_le _, rfl⟩

theorem argName_ok {i : Nat} (h : i ≤ 1) : NameOk (argName i) := by
  rcases Nat.le_one_iff_eq_zero_or_eq_one.mp h with rfl | rfl
  · exact ⟨by decide, by decide⟩
  · exact ⟨by decide, by decide⟩

/-- Two paths without line ends make requests that differ at most in the field of the path.
Whatever two paths hold, the fields in front of the path are the same wherever both
requests can be read. -/
theorem path_keeps_fields (l : Login) (c : PathCall) (f₁ f₂ : CStr) :
    (Free crlf (bytesOf f₁) ∧ Free crlf (bytesOf f₂) →
      Option.Rel (SameBut c.field) (fieldsOf (c.send l f₁)) (fieldsOf (c.send l f₂))) ∧
    ∀ d₁ d₂, fieldsOf (c.send l f₁) = some d₁ → fieldsOf (c.send l f₂) = some d₂ →
      ∀ key ∈ c.before, d₁.get key = d₂.get key := by
  obtain ⟨method, argc, pre, post, hsend, hfield, hpre, hpost, hbefore⟩ := send_shape c l
  rw [hsend, hsend, hfield, hbefore]
  refine ⟨fun ⟨h₁, h₂⟩ => request_sameBut (argName_ok hpre) (by omega) h₁ h₂, ?_⟩
  intro d₁ d₂ h₁ h₂ key hkey
  obtain ⟨e, he, rfl⟩ := List.mem_map.mp hkey
  exact request_before (fun i hi => argName_ok (by omega)) (by omega) h₁ h₂ e he

theorem path_keeps_fields_chown :
    Option.Rel (SameBut (argName 0)) (fieldsOf (sbpChown anonymous (text "x") (text "alice")))
      (fieldsOf (sbpChown anonymous (text "y:\r") (text "alice"))) :=
  (path_keeps_fields anonymous (.chown (text "alice")) (text "x") (text "y:\r")).1
    ⟨by decide, by decide⟩

/-- A line of a path in front of the new owner is read in its place. -/
theorem chown_forged_owner :
    (fieldsOf (sbpChown anonymous (text "x") (text "alice"))).map (Dict.get · (argName 1))
      = some (some (ascii "alice")) ∧
    (fieldsOf (sbpChown anonymous (text "x\r\nArg1: eve") (text "alice"))).map
      (Dict.get · (argName 1)) = some (some (ascii "eve")) ∧
    ¬ ∀ (l : Login) (c : PathCall) (f₁ f₂ : CStr),
      Option.Rel (SameBut c.field) (fieldsOf (c.send l f₁)) (fieldsOf (c.send l f₂)) := by
  have h₁ : (fieldsOf (sbpChown anonymous (text "x") (text "alice"))).map (Dict.get · (argName 1))
      = some (some (ascii "alice")) := by decide +kernel
  have h₂ : (fieldsOf (sbpChown anonymous (text "x\r\nArg1: eve") (text "alice"))).map
      (Dict.get · (argName 1)) = some (some (ascii "eve")) := by decide +kernel
  refine ⟨h₁, h₂, fun hall => ?_⟩
  have hrel := hall anonymous (.chown (text "alice")) (text "x") (text "x\r\nArg1: eve")
  change Option.Rel (SameBut (argName 0)) (fieldsOf (sbpChown anonymous (text "x") (text "alice")))
    (fieldsOf (sbpChown anonymous (text "x\r\nArg1: eve") (text "alice"))) at hrel
  generalize fieldsOf (sbpChown anonymous (text "x") (text "alice")) = a at hrel h₁
  generalize fieldsOf (sbpChown anonymous (text "x\r\nArg1: eve") (text "alice")) = b at hrel h₂
  cases hrel with
  | none => cases h₁
  | some hsame =>
    simp only [Option.map_some, Option.some.injEq] at h₁ h₂
    have h := hsame.values (argName 1) (by decide)
    rw [h₁, h₂] at h
    exact absurd h (by decide)

end Sbpfs.Cnode.FieldSpec
