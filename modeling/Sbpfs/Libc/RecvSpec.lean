import Sbpfs.Libc.Recv
import Sbpfs.Wire.HeadSpec

/-!
# When a message is received whole

At every end of a chunk the first loop takes the text in its buffer, received bytes and
stale ones up to a NUL, for the beginning of the message. The message comes out whole
exactly if the first of these texts that announces a message announces this one's length.
-/
namespace Sbpfs.Libc.RecvSpec

open Sbpfs.Lib.Program Sbpfs.Lib.Search Sbpfs.Cfs.Layout
open Sbpfs.Wire.Head Sbpfs.Wire.HeadSpec Sbpfs.Wire.Number Sbpfs.Libc.Request Sbpfs.Libc.Recv

/-! ## What a text announces -/

/-- The length of the head in a text, and its first line from `Content-Length` on. -/
def announcement (t : Str) : Option (Nat × Str) :=
  match find headerFlag t, find CONTENT_LEN t with
  | some headEnd, some start =>
    (find crlf (t.drop start)).map fun l => (headEnd + 4, (t.drop start).take l)
  | _, _ => none

/-- The line holds a value of at most 63 characters. -/
def Sized (line : Str) : Prop := 16 ≤ line.length ∧ line.length < 80

instance (line : Str) : Decidable (Sized line) := by
  unfold Sized
  infer_instance

/-- The bytes that are missing to a head of `h` bytes and the value of its line. -/
def missing (h : Nat) (line : Str) (r : Nat) : Int :=
  s64 (u64Sub (u64 (u64OfInt (atoll (line.drop 16)) + h)) r)

/-- The text announces nothing, or less than the `r` bytes that are there. -/
def Quiet (t : Str) (r : Nat) : Prop := ∀ p ∈ announcement t, Sized p.2 ∧ missing p.1 p.2 r < 0

/-- The text, of which `r` bytes are there, announces a message of `total` bytes. -/
def Announces (t : Str) (r total : Nat) : Prop :=
  ∃ p ∈ announcement t, Sized p.2 ∧ missing p.1 p.2 r = (total : Int) - r

theorem cstr_drop {b : Str} {c : Nat} (hc : c ≤ (cstr b 0).length) :
    cstr b c = (cstr b 0).drop c := by
  unfold cstr at hc ⊢
  rw [List.drop_zero] at hc ⊢
  induction b generalizing c with
  | nil => simp
  | cons x b ih =>
    cases c with
    | zero => rfl
    | succ c =>
      by_cases hx : x = 0
      · subst hx
        simp at hc
      · rw [List.takeWhile_cons_of_pos (by simpa using hx)] at hc ⊢
        rw [List.length_cons] at hc
        rw [List.drop_succ_cons, List.drop_succ_cons]
        exact ih (by omega)

/-- A part of a buffer that lies in its text. -/
theorem take_drop_text {b : Str} {p n : Nat} (h : p + n ≤ (cstr b 0).length) :
    (b.drop p).take n = ((cstr b 0).drop p).take n := by
  have hb : b = cstr b 0 ++ b.dropWhile (· ≠ 0) := by
    unfold cstr
    rw [List.drop_zero, List.takeWhile_append_dropWhile]
  conv_lhs => rw [hb]
  rw [List.drop_append_of_le_length (by omega), List.take_append_of_le_length]
  rw [List.length_drop]
  omega

theorem getMissingLen_eq (b : Str) (r : Nat) :
    getMissingLen b r = match announcement (cstr b 0) with
      | none => .ok (-1)
      | some p => if Sized p.2 then .ok (missing p.1 p.2 r) else .error .fault := by
  have h0 : ∀ pat, strstr b 0 pat = find pat (cstr b 0) := by
    intro pat
    unfold strstr
    simp
  have hclen : CONTENT_LEN.length = 14 := by decide
  have hflag : headerFlag.length = 4 := rfl
  unfold getMissingLen announcement
  rw [h0, h0]
  cases find headerFlag (cstr b 0) with
  | none => rfl
  | some e =>
    cases hc : find CONTENT_LEN (cstr b 0) with
    | none => rfl
    | some c =>
      have hclt := find_length hc
      have hend : strstr b c crlf = (find crlf ((cstr b 0).drop c)).map (c + ·) := by
        unfold strstr
        rw [cstr_drop (by omega)]
      dsimp only
      rw [hend]
      cases hl : find crlf ((cstr b 0).drop c) with
      | none => rfl
      | some l =>
        have hllt := find_length hl
        rw [List.length_drop] at hllt
        have hlen : (((cstr b 0).drop c).take l).length = l := by
          rw [List.length_take, List.length_drop]
          omega
        simp only [Option.map_some]
        by_cases hs : Sized (((cstr b 0).drop c).take l)
        · have hs' := hs
          unfold Sized at hs'
          rw [hlen] at hs'
          have hvalue : (b.drop (c + (CONTENT_LEN.length + 2))).take
              (c + l - (c + (CONTENT_LEN.length + 2))) = (((cstr b 0).drop c).take l).drop 16 := by
            rw [take_drop_text (by omega), List.drop_take, List.drop_drop, hclen]
            congr 1
            omega
          rw [if_pos hs, if_pos (by simp only [contentLenSize]; omega), hvalue, hflag]
          rfl
        · have hs' := hs
          unfold Sized at hs'
          rw [hlen] at hs'
          rw [if_neg hs, if_neg (by simp only [contentLenSize]; omega)]

/-! ## The loops -/

/-- The numbers of bytes received when the first loop looks at its buffer, unless it is left. -/
def stops (r : Nat) : List Str → List Nat
  | [] => []
  | c :: cs =>
    let r' := min (r + c.length) BUF_SIZE
    r' :: if r' < BUF_SIZE then stops r' cs else []

/-- The text in the buffer with `r` bytes of the message received. -/
def textAt (msg : Str) (stale : { s : Str // s.length = BUF_SIZE }) (r : Nat) : Str :=
  cstr (msg.take r ++ (stale.val ++ [0]).drop r) 0

/-- The first text that is not quiet announces the message. -/
def Trusted (msg : Str) (stale : { s : Str // s.length = BUF_SIZE }) (rs : List Nat) : Prop :=
  ∃ pre r post, rs = pre ++ r :: post ∧ (∀ q ∈ pre, Quiet (textAt msg stale q) q) ∧
    Announces (textAt msg stale r) r msg.length

theorem trusted_nil (msg : Str) (stale : { s : Str // s.length = BUF_SIZE }) :
    ¬ Trusted msg stale [] := by
  rintro ⟨pre, r, post, h, -⟩
  simp at h

theorem trusted_cons {msg : Str} {stale : { s : Str // s.length = BUF_SIZE }} {r : Nat}
    {rs : List Nat} : Trusted msg stale (r :: rs) ↔
      Announces (textAt msg stale r) r msg.length ∨
        Quiet (textAt msg stale r) r ∧ Trusted msg stale rs := by
  constructor
  · rintro ⟨pre, q, post, h, hquiet, htell⟩
    cases pre with
    | nil =>
      cases h
      exact .inl htell
    | cons p pre =>
      cases h
      exact .inr ⟨hquiet _ (List.mem_cons_self ..), pre, q, post, rfl,
        fun x hx => hquiet x (List.mem_cons_of_mem _ hx), htell⟩
  · rintro (h | ⟨hq, pre, q, post, rfl, hquiet, htell⟩)
    · exact ⟨[], r, rs, rfl, by simp, h⟩
    · refine ⟨r :: pre, q, post, rfl, fun x hx => ?_, htell⟩
      rcases List.mem_cons.mp hx with rfl | hx
      · exact hq
      · exact hquiet x hx

/-- One `recv` takes what it can of the first chunk. -/
theorem recv_cons {cap : Nat} {c : Str} {cs : List Str} (hne : ∀ x ∈ c :: cs, x ≠ []) :
    ∃ rest, recv cap (c :: cs) = (c.take cap, rest) ∧ c.take cap ++ rest.flatten = c ++ cs.flatten ∧
      (∀ x ∈ rest, x ≠ []) ∧ (c.length ≤ cap → rest = cs) := by
  have hne' : ∀ x ∈ cs, x ≠ [] := fun x hx => hne x (List.mem_cons_of_mem _ hx)
  by_cases hfit : c.length ≤ cap
  · have hrecv : recv cap (c :: cs) = (c, cs) := if_pos hfit
    refine ⟨cs, ?_, ?_, hne', fun _ => rfl⟩
    · rw [hrecv, List.take_of_length_le hfit]
    · rw [List.take_of_length_le hfit]
  · have hrecv : recv cap (c :: cs) = (c.take cap, c.drop cap :: cs) := if_neg hfit
    refine ⟨c.drop cap :: cs, hrecv, ?_, fun x hx => ?_, fun h => absurd h hfit⟩
    · rw [List.flatten_cons, ← List.append_assoc, List.take_append_drop]
    · rcases List.mem_cons.mp hx with rfl | hx
      · rw [← List.length_pos_iff, List.length_drop]
        omega
      · exact hne' x hx

/-- The second loop delivers the missing bytes if they come. -/
theorem recvBody_eq {m : Nat} {body : Str} {cs : List Str} (hne : ∀ c ∈ cs, c ≠ [])
    (hm : body.length < m) :
    recvBody m body cs = if m ≤ body.length + cs.flatten.length
      then some (body ++ cs.flatten.take (m - body.length)) else none := by
  induction cs generalizing body with
  | nil =>
    rw [if_neg (by simp; omega)]
    rfl
  | cons c cs ih =>
    have hc := List.length_pos_iff.mpr (hne c (List.mem_cons_self ..))
    have hne' : ∀ c ∈ cs, c ≠ [] := fun c hc => hne c (List.mem_cons_of_mem _ hc)
    obtain ⟨rest, hrecv, -, -, -⟩ := @recv_cons (m - body.length) _ _ hne
    rw [recvBody, hrecv]
    dsimp only
    rw [List.length_append, List.length_take, List.flatten_cons, List.length_append]
    by_cases hfit : c.length ≤ m - body.length
    · rw [Nat.min_eq_right hfit, List.take_of_length_le hfit]
      by_cases hdone : body.length + c.length ≥ m
      · have htake : (c ++ cs.flatten).take (m - body.length) = c := by
          rw [List.take_append_of_le_length (by omega), List.take_of_length_le hfit]
        rw [if_pos hdone, if_pos (by omega), htake]
      · rw [if_neg hdone, if_neg (by omega), ih hne' (by rw [List.length_append]; omega),
          List.length_append, List.take_append, List.take_of_length_le hfit, Nat.sub_sub]
        simp only [Nat.add_assoc, List.append_assoc]
    · rw [Nat.min_eq_left (by omega), if_pos (by omega), if_pos (by omega),
        List.take_append_of_le_length (by omega)]

/-- What `sbp_recv` makes of the way the first loop was left. -/
def finish : Option Head → Option (Str × Nat)
  | none => none
  | some h =>
    (if h.missingBytes = 0 then some [] else recvBody h.missingBytes [] h.rest).map fun body =>
      (h.buf.take h.receivedLen ++ body ++ [0], h.missingBytes + h.receivedLen + 1)

theorem sbpRecv_eq (stale : { s : Str // s.length = BUF_SIZE }) (chunks : List Str) :
    sbpRecv true stale chunks = (recvHead (stale.val ++ [0]) 0 chunks).map finish := by
  unfold sbpRecv
  rcases recvHead (stale.val ++ [0]) 0 chunks with e | _ | h
  · rfl
  · rfl
  · change Except.bind _ _ = _
    simp only [Except.bind, if_pos, Except.map, finish]
    split <;> rename_i hb <;> rw [hb] <;> rfl

/-- The first loop left with `m` bytes missing: the message comes out whole if these are all. -/
theorem finish_whole {msg buf : Str} {r m : Nat} {rest : List Str} (hne : ∀ c ∈ rest, c ≠ [])
    (hbuf : buf.take r = msg.take r) (hrest : rest.flatten = msg.drop r) (hr : r ≤ msg.length) :
    finish (some ⟨buf, r, m, rest⟩) = some (msg ++ [0], msg.length + 1) ↔ r + m = msg.length := by
  have hlen : rest.flatten.length = msg.length - r := by rw [hrest, List.length_drop]
  unfold finish
  dsimp only
  rw [hbuf]
  by_cases hm : m = 0
  · rw [if_pos hm, Option.map_some]
    constructor
    · intro h
      simp only [Option.some.injEq, Prod.mk.injEq] at h
      omega
    · intro h
      rw [List.take_of_length_le (by omega), List.append_nil, ← h]
      simp only [Option.some.injEq, Prod.mk.injEq, true_and]
      omega
  · rw [if_neg hm, recvBody_eq hne (by simp; omega)]
    simp only [List.length_nil, Nat.zero_add, Nat.sub_zero, List.nil_append]
    constructor
    · intro h
      split at h
      · simp only [Option.map_some, Option.some.injEq, Prod.mk.injEq] at h
        omega
      · cases h
    · intro h
      have hall : (msg.drop r).take m = msg.drop r :=
        List.take_of_length_le (by rw [List.length_drop]; omega)
      rw [if_pos (by omega), hrest, hall, Option.map_some, List.take_append_drop]
      simp only [Option.some.injEq, Prod.mk.injEq, true_and]
      omega

/-- Bytes received on top of `r` others in the buffer. -/
theorem overwrite_received {msg stale c rest : Str} {r : Nat} (hr : r ≤ msg.length)
    (hmsg : msg.drop r = c ++ rest) :
    overwrite (msg.take r ++ stale.drop r) r c = msg.take (r + c.length) ++
      stale.drop (r + c.length) := by
  have hlen : (msg.take r).length = r := by
    rw [List.length_take]
    omega
  have htake : msg.take (r + c.length) = msg.take r ++ c := by
    rw [List.take_add, hmsg, List.take_left]
  unfold overwrite
  rw [List.take_left' hlen, htake]
  congr 1
  rw [List.drop_append, hlen, List.drop_of_length_le (by rw [hlen]; omega), List.nil_append,
    List.drop_drop]
  congr 1
  omega

/-- The first loop from `r` bytes on. -/
theorem recvHead_whole {msg : Str} {stale : { s : Str // s.length = BUF_SIZE }} {r : Nat}
    {cs : List Str} (hne : ∀ c ∈ cs, c ≠ []) (hr : r ≤ msg.length) (hfull : r < BUF_SIZE)
    (hrest : msg.drop r = cs.flatten) :
    (recvHead (msg.take r ++ (stale.val ++ [0]).drop r) r cs).map finish
      = .ok (some (msg ++ [0], msg.length + 1)) ↔ Trusted msg stale (stops r cs) := by
  induction cs generalizing r with
  | nil =>
    refine ⟨fun h => ?_, fun h => absurd h (trusted_nil msg stale)⟩
    simp [recvHead, Except.map, finish] at h
  | cons c cs ih =>
    have hc := List.length_pos_iff.mpr (hne c (List.mem_cons_self ..))
    have hne' : ∀ c ∈ cs, c ≠ [] := fun c hc => hne c (List.mem_cons_of_mem _ hc)
    rw [List.flatten_cons] at hrest
    have hmsg : msg.length = r + (c.length + cs.flatten.length) := by
      have := congrArg List.length hrest
      rw [List.length_drop, List.length_append] at this
      omega
    obtain ⟨rest, hrecv, hjoin, hnerest, hsame⟩ := @recv_cons (BUF_SIZE - r) _ _ hne
    generalize hg : c.take (BUF_SIZE - r) = got at hrecv hjoin
    have hgot : got.length = min (BUF_SIZE - r) c.length := by rw [← hg, List.length_take]
    have hr' : min (r + c.length) BUF_SIZE = r + got.length := by omega
    rw [← hjoin] at hrest
    have hbuf := @overwrite_received _ (stale.val ++ [0]) _ _ _ hr hrest
    have hle : r + got.length ≤ msg.length := by omega
    have hdrop : rest.flatten = msg.drop (r + got.length) := by
      rw [← List.drop_drop, hrest, List.drop_left]
    have htake : (msg.take (r + got.length) ++ (stale.val ++ [0]).drop (r + got.length)).take
        (r + got.length) = msg.take (r + got.length) :=
      List.take_left' (by rw [List.length_take]; omega)
    -- what follows if this text is quiet
    have hnext : (if r + got.length ≥ BUF_SIZE then .ok none
          else recvHead (msg.take (r + got.length) ++ (stale.val ++ [0]).drop (r + got.length))
            (r + got.length) cs).map finish = .ok (some (msg ++ [0], msg.length + 1)) ↔
        Trusted msg stale (if r + got.length < BUF_SIZE then stops (r + got.length) cs
          else []) := by
      by_cases hlt : r + got.length < BUF_SIZE
      · rw [if_neg (by omega), if_pos hlt]
        obtain rfl := hsame (by omega)
        exact ih hne' hle hlt hdrop.symm
      · rw [if_pos (by omega), if_neg hlt]
        refine ⟨fun h => ?_, fun h => absurd h (trusted_nil msg stale)⟩
        simp [Except.map, finish] at h
    rw [recvHead, hrecv]
    dsimp only
    rw [if_neg (by omega), hbuf, getMissingLen_eq, stops, hr', trusted_cons]
    unfold Announces Quiet textAt
    cases announcement (cstr (msg.take (r + got.length) ++
        (stale.val ++ [0]).drop (r + got.length)) 0) with
    | none =>
      dsimp only
      rw [if_pos (by omega), hnext]
      simp
    | some p =>
      simp only [Option.mem_def, Option.some.injEq, exists_eq_left', forall_eq']
      generalize missing p.1 p.2 (r + got.length) = z
      by_cases hs : Sized p.2
      · rw [if_pos hs]
        dsimp only
        by_cases hneg : z < 0
        · rw [if_pos hneg, hnext]
          constructor
          · exact fun h => .inr ⟨⟨hs, hneg⟩, h⟩
          · rintro (h | h)
            · omega
            · exact h.2
        · rw [if_neg hneg]
          change Except.ok (finish _) = _ ↔ _
          rw [Except.ok.injEq, finish_whole hnerest htake hdrop hle]
          constructor
          · exact fun h => .inl ⟨hs, by omega⟩
          · rintro (h | h)
            · omega
            · exact absurd h.1.2 hneg
      · rw [if_neg hs]
        dsimp only
        constructor
        · intro h
          cases h
        · rintro (h | h)
          · exact absurd h.1 hs
          · exact absurd h.1.1 hs

/-! ## Messages with a head of at most 4096 bytes -/

/-- A message whose head carries the length of its body. -/
structure Framed (head body : Str) : Prop where
  fits : head.length ≤ BUF_SIZE
  nul : 0 ∉ head
  ending : find headerFlag head = some (head.length - 4)
  field : ∃ pre post, find CONTENT_LEN head = some pre.length ∧
    head = pre ++ (CONTENT_LEN ++ colon ++ decimal 0 (body.length : Int) ++ crlf ++ post)
  size : head.length + body.length < 2 ^ 63

theorem numeral_free (n : Nat) : Free crlf (numeral 10 n) := by
  intro hi
  have hmem : (0x0d : UInt8) ∈ numeral 10 n := hi.subset (List.mem_cons_self ..)
  exact absurd (numeral_digits _ hmem) (by decide)

theorem contentLine_free (n : Nat) : Free crlf (CONTENT_LEN ++ colon ++ decimal 0 (n : Int)) := by
  rw [decimal_nat]
  refine free_append (by decide) (numeral_free n) fun hs => ?_
  exact absurd hs.1 (by decide)

/-- Once the head has been received the text announces the message. -/
theorem Framed.announces {head body : Str} (h : Framed head body)
    (stale : { s : Str // s.length = BUF_SIZE }) {r : Nat} (hr : head.length ≤ r)
    (hle : r ≤ (head ++ body).length) :
    Announces (textAt (head ++ body) stale r) r (head ++ body).length := by
  obtain ⟨pre, post, hfind, hhead⟩ := h.field
  have hlen : body.length < 2 ^ 63 := by
    have := h.size
    omega
  have hending := find_length h.ending
  have hflag : headerFlag.length = 4 := rfl
  obtain ⟨u, hu⟩ : ∃ u, textAt (head ++ body) stale r = head ++ u := by
    unfold textAt
    rw [List.take_append, List.take_of_length_le hr, List.append_assoc]
    exact ⟨_, cstr_head h.nul⟩
  have hdrop : (head ++ u).drop pre.length
      = CONTENT_LEN ++ colon ++ decimal 0 (body.length : Int) ++ (crlf ++ (post ++ u)) := by
    rw [hhead, List.append_assoc, List.drop_left]
    simp only [List.append_assoc]
  have hline : find crlf ((head ++ u).drop pre.length)
      = some (CONTENT_LEN ++ colon ++ decimal 0 (body.length : Int)).length := by
    rw [hdrop, ← List.append_assoc _ crlf]
    exact find_append crlf_borderless (contentLine_free body.length)
  have htake : ((head ++ u).drop pre.length).take
      (CONTENT_LEN ++ colon ++ decimal 0 (body.length : Int)).length
        = CONTENT_LEN ++ colon ++ decimal 0 (body.length : Int) := by
    rw [hdrop, List.take_left]
  have hann : announcement (head ++ u)
      = some (head.length, CONTENT_LEN ++ colon ++ decimal 0 (body.length : Int)) := by
    unfold announcement
    rw [find_append_right h.ending u, find_append_right hfind u]
    dsimp only
    rw [hline, Option.map_some, htake]
    congr 2
    omega
  have hclen : (CONTENT_LEN ++ colon).length = 16 := by decide
  have hvalue : (CONTENT_LEN ++ colon ++ decimal 0 (body.length : Int)).drop 16
      = decimal 0 (body.length : Int) := by
    rw [← hclen, List.drop_left]
  have hdigits : (decimal 0 (body.length : Int)).length ≤ 19 := by
    rw [decimal_nat]
    exact numeral_length (by omega) (by omega)
  refine ⟨_, by rw [hu, hann]; rfl, ⟨?_, ?_⟩, ?_⟩
  · rw [List.length_append, hclen]
    omega
  · rw [List.length_append, hclen]
    omega
  · have hsize := h.size
    rw [List.length_append] at hle ⊢
    unfold missing
    rw [hvalue, atoll_decimal hlen]
    unfold u64OfInt u64 u64Sub s64
    omega

theorem stops_le {r : Nat} {cs : List Str} : ∀ x ∈ stops r cs, x ≤ r + cs.flatten.length := by
  induction cs generalizing r with
  | nil => simp [stops]
  | cons c cs ih =>
    intro x hx
    rw [List.flatten_cons, List.length_append]
    rw [stops] at hx
    rcases List.mem_cons.mp hx with rfl | hx
    · omega
    · split at hx
      · have := ih x hx
        omega
      · cases hx

/-- The first loop goes on until `k` bytes are there, unless it is left before. -/
theorem stops_reach {r k : Nat} {cs : List Str} (hk : k ≤ BUF_SIZE) (hr : r < k)
    (hlen : k ≤ r + cs.flatten.length) : ∃ x ∈ stops r cs, k ≤ x := by
  induction cs generalizing r with
  | nil =>
    simp at hlen
    omega
  | cons c cs ih =>
    rw [List.flatten_cons, List.length_append] at hlen
    by_cases hc : k ≤ r + c.length
    · exact ⟨_, List.mem_cons_self .., by omega⟩
    · have hmin : min (r + c.length) BUF_SIZE = r + c.length := by omega
      obtain ⟨x, hx, hkx⟩ := ih (r := r + c.length) (by omega) (by omega)
      refine ⟨x, ?_, hkx⟩
      rw [stops, hmin, if_pos (by omega)]
      exact List.mem_cons_of_mem _ hx

/-- A text that is quiet announces nothing of use. -/
theorem Quiet.not_announces {t : Str} {r total : Nat} (h : Quiet t r) (hr : r ≤ total) :
    ¬ Announces t r total := by
  rintro ⟨p, hp, -, heq⟩
  have := (h p hp).2
  omega

/-- If from `k` bytes on every text announces the message, and the loop gets there, it is
enough to look at the texts before. -/
theorem trusted_iff {msg : Str} {stale : { s : Str // s.length = BUF_SIZE }} {k : Nat}
    {rs : List Nat} (hle : ∀ x ∈ rs, x ≤ msg.length) (hreach : ∃ x ∈ rs, k ≤ x)
    (hall : ∀ x ∈ rs, k ≤ x → Announces (textAt msg stale x) x msg.length) :
    Trusted msg stale rs ↔ ∀ pre r post, rs = pre ++ r :: post → r < k →
      (∀ q ∈ pre, Quiet (textAt msg stale q) q) →
        Quiet (textAt msg stale r) r ∨ Announces (textAt msg stale r) r msg.length := by
  induction rs with
  | nil =>
    obtain ⟨x, hx, -⟩ := hreach
    cases hx
  | cons r rs ih =>
    have hloud : Quiet (textAt msg stale r) r → ¬ Announces (textAt msg stale r) r msg.length :=
      fun h => h.not_announces (hle r (List.mem_cons_self ..))
    rw [trusted_cons]
    by_cases hk : k ≤ r
    · have hr := hall r (List.mem_cons_self ..) hk
      refine ⟨fun _ pre q post hsplit hq hquiet => ?_, fun _ => .inl hr⟩
      cases pre with
      | nil =>
        cases hsplit
        omega
      | cons p pre =>
        cases hsplit
        exact absurd hr (hloud (hquiet r (List.mem_cons_self ..)))
    · have hreach' : ∃ x ∈ rs, k ≤ x := by
        obtain ⟨x, hx, hkx⟩ := hreach
        rcases List.mem_cons.mp hx with rfl | hx
        · exact absurd hkx hk
        · exact ⟨x, hx, hkx⟩
      have hrest := ih (fun x hx => hle x (List.mem_cons_of_mem _ hx)) hreach'
        fun x hx => hall x (List.mem_cons_of_mem _ hx)
      rw [hrest]
      constructor
      · intro h pre q post hsplit hq hquiet
        cases pre with
        | nil =>
          cases hsplit
          rcases h with h | h
          · exact .inr h
          · exact .inl h.1
        | cons p pre =>
          cases hsplit
          rcases h with h | h
          · exact absurd h (hloud (hquiet r (List.mem_cons_self ..)))
          · exact h.2 pre q post rfl hq fun x hx => hquiet x (List.mem_cons_of_mem _ hx)
      · intro h
        rcases h [] r rs rfl (by omega) (by simp) with hq | ha
        · refine .inr ⟨hq, fun pre q post hsplit hlt hquiet => ?_⟩
          refine h (r :: pre) q post (by rw [hsplit, List.cons_append]) hlt fun x hx => ?_
          rcases List.mem_cons.mp hx with rfl | hx
          · exact hq
          · exact hquiet x hx
        · exact .inl ha

/-- For a framed message only the texts before its head is complete matter: none of them may
be the first that announces a message and announce one of another length. -/
theorem Framed.trusted_iff {head body : Str} (h : Framed head body)
    (stale : { s : Str // s.length = BUF_SIZE }) {chunks : List Str}
    (hcut : chunks.flatten = head ++ body) :
    Trusted (head ++ body) stale (stops 0 chunks) ↔
      ∀ pre r post, stops 0 chunks = pre ++ r :: post → r < head.length →
        (∀ q ∈ pre, Quiet (textAt (head ++ body) stale q) q) →
          Quiet (textAt (head ++ body) stale r) r ∨
            Announces (textAt (head ++ body) stale r) r (head ++ body).length := by
  have hpos : 0 < head.length := by
    have := find_length h.ending
    have hflag : headerFlag.length = 4 := rfl
    omega
  have hreach : ∃ x ∈ stops 0 chunks, head.length ≤ x :=
    stops_reach h.fits hpos (by rw [hcut, List.length_append]; omega)
  have hle : ∀ x ∈ stops 0 chunks, x ≤ (head ++ body).length := by
    intro x hx
    have := stops_le x hx
    rw [hcut] at this
    omega
  exact RecvSpec.trusted_iff hle hreach fun x hx hxl => h.announces stale hxl (hle x hx)

/-- `sbp_recv` returns the whole message, followed by a NUL, exactly if the first text in its
buffer that announces a message announces one of this length; for a framed message only
the texts before its head is complete can go wrong. -/
theorem recv_whole_iff (stale : { s : Str // s.length = BUF_SIZE }) {chunks : List Str}
    (hne : ∀ c ∈ chunks, c ≠ []) :
    (sbpRecv true stale chunks = .ok (some (chunks.flatten ++ [0], chunks.flatten.length + 1)) ↔
      Trusted chunks.flatten stale (stops 0 chunks)) ∧
    ∀ head body, Framed head body → chunks.flatten = head ++ body →
      (Trusted chunks.flatten stale (stops 0 chunks) ↔
        ∀ pre r post, stops 0 chunks = pre ++ r :: post → r < head.length →
          (∀ q ∈ pre, Quiet (textAt (head ++ body) stale q) q) →
            Quiet (textAt (head ++ body) stale r) r ∨
              Announces (textAt (head ++ body) stale r) r (head ++ body).length) := by
  refine ⟨?_, fun head body hframed hcut => ?_⟩
  · have hpos : 0 < BUF_SIZE := Nat.zero_lt_succ 4095
    have h := @recvHead_whole _ stale _ _ hne (Nat.zero_le _) hpos
      (List.drop_zero (l := chunks.flatten))
    rw [List.take_zero, List.nil_append, List.drop_zero] at h
    rw [sbpRecv_eq]
    exact h
  · rw [hcut]
    exact hframed.trusted_iff stale hcut

/-- A stack that holds `s` and zeros behind it. -/
def stackOf (s : Str) (h : s.length ≤ BUF_SIZE) : { s : Str // s.length = BUF_SIZE } :=
  ⟨s ++ List.replicate (BUF_SIZE - s.length) 0, by
    rw [List.length_append, List.length_replicate]
    omega⟩

/-- A reply of which the body has `n` bytes. -/
def replyHead (n : String) : Str :=
  ascii "SBPFS/1.0 OK" ++ crlf ++ ascii "Content-Length: " ++ ascii n ++ headerFlag

theorem recv_whole_iff_clean :
    sbpRecv true (stackOf [] (Nat.zero_le _)) [replyHead "5" ++ ascii "hel", ascii "lo"]
      = .ok (some (replyHead "5" ++ ascii "hello" ++ [0], 41)) := by
  have hne : ∀ c ∈ [replyHead "5" ++ ascii "hel", ascii "lo"], c ≠ [] := by decide
  refine (recv_whole_iff (stackOf [] (Nat.zero_le _)) hne).1.mpr ⟨[], 38,
    [40], by decide, by simp, ?_⟩
  exact ⟨(35, ascii "Content-Length: 5"), by decide +kernel, by decide, by decide +kernel⟩

/-- The rest of an earlier head in the buffer completes the first byte of a new one: the body
is left out. -/
theorem recv_stale_head :
    Framed (replyHead "5") (ascii "hello") ∧
    sbpRecv true (stackOf (replyHead "0") (by decide))
        [ascii "S", (replyHead "5").tail ++ ascii "hello"]
      = .ok (some (replyHead "5" ++ [0], 36)) := by
  refine ⟨⟨by decide, by decide, by decide, ?_, by decide⟩, by decide +kernel⟩
  exact ⟨ascii "SBPFS/1.0 OK" ++ crlf, crlf, by decide, by decide⟩

end Sbpfs.Libc.RecvSpec
