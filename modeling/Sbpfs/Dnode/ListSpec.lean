import Sbpfs.Dnode.BlockSpec

/-!
# What the calls do to the two lists

The numbers of the blocks are texts in the rows of `blocklist` and in the records of the list file,
and the file has their count in front of them. A number that is entered goes behind the others; a
number that is found and deleted makes room for the last one.
-/
namespace Sbpfs.Dnode.ListSpec

open Sbpfs.Lib.Program Sbpfs.Lib.Memory
open Sbpfs.Cfs.Layout (s32 u64OfInt)
open Sbpfs.Wire.Head Sbpfs.Wire.Number Sbpfs.Libc.Request
open Sbpfs.Dnode.Blockman Sbpfs.Dnode.Serve Sbpfs.Dnode.BlockSpec

/-! ## Texts in memory -/

/-- The text and a NUL stand at `off`. -/
def TextAt (b : Bytes) (off : Nat) (t : Str) : Prop :=
  ∀ k ≤ t.length, b (off + k) = memOf t (fun _ => 0) k

section Texts

variable {b : Bytes} {off : Nat} {t : Str}

theorem memOf_inside {s : Str} {rest : Bytes} {k : Nat} (h : k < s.length) :
    memOf s rest k = s[k] := by
  unfold memOf
  rw [List.getElem?_eq_getElem h]
  rfl

theorem memOf_end (s : Str) (rest : Bytes) : memOf s rest s.length = rest s.length := by
  unfold memOf
  rw [List.getElem?_eq_none (Nat.le_refl _)]
  rfl

theorem TextAt.char (h : TextAt b off t) {k : Nat} (hk : k < t.length) : b (off + k) = t[k] :=
  (h k (Nat.le_of_lt hk)).trans (memOf_inside hk)

theorem TextAt.stop (h : TextAt b off t) : b (off + t.length) = 0 :=
  (h t.length (Nat.le_refl _)).trans (memOf_end t _)

theorem TextAt.tail {c : UInt8} (h : TextAt b off (c :: t)) : TextAt b (off + 1) t := by
  intro k hk
  have hat := h (k + 1) (Nat.succ_le_succ hk)
  rw [show off + 1 + k = off + (k + 1) from by omega, hat]
  rfl

/-- The text is what is read there. -/
theorem textFrom_eq (h : TextAt b off t) (ht : 0 ∉ t) {n : Nat} (hn : t.length < n) :
    textFrom b n off = some t := by
  induction t generalizing off n with
  | nil =>
    obtain ⟨m, rfl⟩ : ∃ m, n = m + 1 := ⟨n - 1, by simp only [List.length_nil] at hn; omega⟩
    exact if_pos h.stop
  | cons c t ih =>
    rw [List.length_cons] at hn
    obtain ⟨m, rfl⟩ : ∃ m, n = m + 1 := ⟨n - 1, by omega⟩
    have hc : b off = c := h 0 (Nat.zero_le _)
    have hne : ¬ b off = 0 := by
      rw [hc]
      intro hzero
      exact ht (hzero ▸ List.mem_cons_self ..)
    have htail := ih h.tail (fun hm => ht (List.mem_cons_of_mem _ hm)) (Nat.lt_of_succ_lt_succ hn)
    rw [textFrom, if_neg hne, htail, hc]
    rfl

theorem textAt_memOf (t : Str) (rest : Bytes) : TextAt (memOf (t ++ [0]) rest) 0 t := by
  intro k hk
  have hlen : k < (t ++ [0]).length := by
    rw [List.length_append, List.length_singleton]
    omega
  rw [Nat.zero_add, memOf_inside hlen]
  rcases Nat.lt_or_eq_of_le hk with hk | rfl
  · rw [memOf_inside hk, List.getElem_append_left hk]
  · rw [memOf_end, List.getElem_append_right (Nat.le_refl _)]
    simp only [Nat.sub_self, List.getElem_singleton]

/-- A copied text. -/
theorem textAt_blit {src : Bytes} {soff n : Nat} (h : TextAt src soff t) (hn : t.length < n) :
    TextAt (blit b off src soff n) off t := by
  intro k hk
  rw [blit_inside (by omega) (by omega), Nat.add_sub_cancel_left]
  exact h k hk

theorem textAt_blit_other {src : Bytes} {doff soff n : Nat} (h : TextAt b off t)
    (hout : off + t.length < doff ∨ doff + n ≤ off) : TextAt (blit b doff src soff n) off t := by
  intro k hk
  rw [blit_outside (by omega)]
  exact h k hk

end Texts

theorem nul_notin_numText (b : UInt64) : 0 ∉ numText b := by
  intro h
  rcases decimal_char h with h | h
  · exact absurd h (by decide)
  · exact absurd h (by decide)

/-- No number has more than 20 characters. -/
theorem numText_length (b : UInt64) : (numText b).length ≤ 20 := by
  have hb := b.toNat_lt
  have habs : (s64 b.toNat).natAbs < 10 ^ 19 := by
    unfold s64
    split <;> omega
  have hlen : (zeroPad 0 (numeral 10 (s64 b.toNat).natAbs)).length ≤ 19 := by
    rw [zeroPad, Nat.zero_sub]
    exact numeral_length (by decide) habs
  unfold numText decimal
  split
  · exact Nat.succ_le_succ hlen
  · exact hlen.trans (by decide)

theorem leadingValue_stop (t rest : Str) : leadingValue (t ++ 0 :: rest) = leadingValue t := by
  have htake : (t ++ 0 :: rest).takeWhile isDigit = t.takeWhile isDigit := by
    induction t with
    | nil => rfl
    | cons c t ih =>
      rw [List.cons_append, List.takeWhile_cons, List.takeWhile_cons, ih]
  unfold leadingValue
  rw [htake]

/-- `atoll` stops at the NUL. -/
theorem atoll_stop (t rest : Str) : atoll (t ++ 0 :: rest) = atoll t := by
  have hdrop : (t ++ 0 :: rest).dropWhile isSpace = t.dropWhile isSpace ++ 0 :: rest := by
    induction t with
    | nil => rfl
    | cons c t ih =>
      rw [List.cons_append, List.dropWhile_cons, List.dropWhile_cons, ih]
      split <;> rfl
  unfold atoll
  rw [hdrop]
  cases t.dropWhile isSpace with
  | nil => rfl
  | cons c s =>
    have hsign := leadingValue_stop s rest
    have hplain := leadingValue_stop (c :: s) rest
    rw [List.cons_append] at hplain ⊢
    by_cases hminus : c = 0x2d
    · subst hminus
      show saturate (-(leadingValue (s ++ 0 :: rest) : Int)) = saturate (-(leadingValue s : Int))
      rw [hsign]
    by_cases hplus : c = 0x2b
    · subst hplus
      show saturate (leadingValue (s ++ 0 :: rest)) = saturate (leadingValue s)
      rw [hsign]
    split
    · rename_i heq
      exact absurd (List.cons.inj heq).1 hminus
    · rename_i heq
      exact absurd (List.cons.inj heq).1 hplus
    · rw [hplain]
      split
      · rename_i heq
        exact absurd (List.cons.inj heq).1 hminus
      · rename_i heq
        exact absurd (List.cons.inj heq).1 hplus
      · rfl

/-! ## What the node keeps -/

/-- The list file names the first `n` numbers of `num`. -/
structure Recorded (f : File) (n : Nat) (num : Nat → UInt64) : Prop where
  size : f.size = 6401 * 64
  count : ∃ t, t.length < 4 ∧ 0 ∉ t ∧ atoll t = n ∧ TextAt f.bytes 0 t
  records : ∀ i < n, TextAt f.bytes ((i + 1) * BLOCKNAME) (numText (num i))

/-- Both lists are the first `n` numbers of `num`, which are different ones. -/
structure Listing (d : DNode) (n : Nat) (num : Nat → UInt64) : Prop where
  count : d.bnum.toNat = n
  fits : n ≤ BLOCKNAME
  distinct : ∀ i < n, ∀ j < n, num i = num j → i = j
  rows : ∀ i < n, TextAt d.blocklist (i * MAX_BLOCKSIZE) (numText (num i))
  file : ∃ f, d.files BLOCKLISTPATH = some f ∧ Recorded f n num

section Storing

variable {f : File} {d : DNode} {n : Nat} {num : Nat → UInt64}

/-- The count in front of the records. -/
def counted (f : File) (d : DNode) : File :=
  f.splice 0 4 (memOf (decimal 0 (s64 d.bnum.toNat) ++ [0]) d.env.stray)

/-- The count of a list is a short text. -/
theorem count_text (hn : d.bnum.toNat = n) (hfits : n ≤ BLOCKNAME) :
    (decimal 0 (s64 d.bnum.toNat)).length < 3 ∧ 0 ∉ decimal 0 (s64 d.bnum.toNat) ∧
      atoll (decimal 0 (s64 d.bnum.toNat)) = n := by
  simp only [BLOCKNAME] at hfits
  have hs : s64 d.bnum.toNat = (n : Int) := by
    unfold s64
    split <;> omega
  refine ⟨?_, nul_notin_numText d.bnum, ?_⟩
  · rw [hs, decimal_nat]
    exact Nat.lt_succ_of_le (numeral_length (by decide) (by omega))
  · rw [hs]
    exact atoll_decimal (by omega)

theorem counted_size (hsize : f.size = 6401 * 64) : (counted f d).size = 6401 * 64 := by
  unfold counted
  rw [splice_size (by decide), hsize]
  rfl

theorem counted_records (hsize : f.size = 6401 * 64) (hfits : n ≤ BLOCKNAME) {i : Nat} {t : Str}
    (h : TextAt f.bytes ((i + 1) * BLOCKNAME) t) (hi : i < n) (ht : t.length ≤ 20) :
    TextAt (counted f d).bytes ((i + 1) * BLOCKNAME) t := by
  simp only [BLOCKNAME] at hfits h ⊢
  intro k hk
  unfold counted
  rw [splice_bytes (by decide), if_neg (by omega), if_pos (by omega)]
  exact h k hk

theorem counted_count (hn : d.bnum.toNat = n) (hfits : n ≤ BLOCKNAME) :
    ∃ t, t.length < 4 ∧ 0 ∉ t ∧ atoll t = n ∧ TextAt (counted f d).bytes 0 t := by
  obtain ⟨hlen, hnul, hval⟩ := count_text hn hfits
  refine ⟨_, hlen.trans (by decide), hnul, hval, ?_⟩
  intro k hk
  unfold counted
  rw [splice_bytes (by decide), if_pos (by omega)]
  have hat := textAt_memOf (decimal 0 (s64 d.bnum.toNat)) d.env.stray k hk
  rw [Nat.zero_add] at hat ⊢
  exact hat

/-- The count alone was written. -/
theorem recorded_of_count (hsize : f.size = 6401 * 64) (hn : d.bnum.toNat = n)
    (hfits : n ≤ BLOCKNAME)
    (hold : ∀ i < n, TextAt f.bytes ((i + 1) * BLOCKNAME) (numText (num i))) :
    Recorded (counted f d) n num where
  size := counted_size hsize
  count := counted_count hn hfits
  records := fun i hi => counted_records hsize hfits (hold i hi) hi (numText_length _)

/-- The count and record `r` were written. -/
theorem recorded_of_row {r : Nat} {name : Bytes} (hsize : f.size = 6401 * 64)
    (hn : d.bnum.toNat = n) (hfits : n ≤ BLOCKNAME) (hr : r ≤ BLOCKNAME)
    (hold : ∀ i < n, i ≠ r → TextAt f.bytes ((i + 1) * BLOCKNAME) (numText (num i)))
    (hnew : r < n → TextAt name 0 (numText (num r))) :
    Recorded (recorded f d (r + 1) name) n num := by
  have hdef : recorded f d (r + 1) name
      = (counted f d).splice ((r + 1) * BLOCKNAME) BLOCKNAME name := rfl
  rw [hdef]
  constructor
  · rw [splice_size (by decide), counted_size hsize]
    simp only [BLOCKNAME] at hr ⊢
    omega
  · obtain ⟨t, hlen, hnul, hval, hat⟩ := counted_count (f := f) hn hfits
    refine ⟨t, hlen, hnul, hval, fun k hk => ?_⟩
    rw [splice_bytes (by decide), if_neg (by simp only [BLOCKNAME]; omega),
      if_pos (by rw [counted_size hsize]; omega)]
    exact hat k hk
  · intro i hi k hk
    have hlen := numText_length (num i)
    simp only [BLOCKNAME] at hfits hr hk ⊢
    rw [splice_bytes (by decide)]
    by_cases hir : i = r
    · subst hir
      rw [if_pos (by omega), Nat.add_sub_cancel_left]
      have hat := hnew hi k hk
      rwa [Nat.zero_add] at hat
    · rw [if_neg (by omega), if_pos (by rw [counted_size hsize]; omega)]
      exact counted_records hsize hfits (hold i hi hir) hi hlen k hk

end Storing

/-! ## The calls -/

section Calls

variable {d : DNode} {n : Nat} {num : Nat → UInt64} {b : UInt64}

/-- A new number goes behind the others. -/
theorem createblock_lists (h : Listing d n num) (hroom : n < BLOCKNAME)
    (hopens : d.env.opens 0 = true ∧ d.env.opens 1 = true) (ht : TextFits d b)
    (hnew : ∀ i < n, num i ≠ b) :
    ∃ d', createblock b d = .ok (0, d') ∧ Listing d' (n + 1) (Function.update num n b) := by
  obtain ⟨f, hf, hrec⟩ := h.file
  have hlen := numText_length b
  have hcount : (entered (blanked d b) b).bnum.toNat = n + 1 := by
    show (d.bnum + 1).toNat = n + 1
    rw [UInt64.toNat_add, h.count]
    simp only [BLOCKNAME] at hroom
    show (n + 1) % 2 ^ 64 = n + 1
    omega
  obtain ⟨hshort, -, -⟩ := count_text hcount hroom
  have hroomy : CanCreate d b f := by
    refine ⟨hopens.1, ?_, hopens.2, ?_, ?_⟩
    · show d.bnum.toNat * MAX_BLOCKSIZE + _ + 1 ≤ _
      simp only [BLOCKNAME, MAX_BLOCKSIZE] at hroom ⊢
      rw [h.count]
      omega
    · show Function.update d.files (pathOf b) (some blank) BLOCKLISTPATH = some f
      rw [Function.update_of_ne (pathOf_ne_list b).symm, hf]
    · omega
  have hold : ∀ i < n, Function.update num n b i = num i :=
    fun i hi => Function.update_of_ne (Nat.ne_of_lt hi) _ _
  have hself : Function.update num n b n = b := Function.update_self _ _ _
  refine ⟨_, createblock_run ht hroomy, hcount, hroom, ?_, ?_, ?_⟩
  · intro i hi j hj hij
    rcases Nat.lt_or_eq_of_le (Nat.le_of_lt_succ hi) with hi | rfl
    · rw [hold i hi] at hij
      rcases Nat.lt_or_eq_of_le (Nat.le_of_lt_succ hj) with hj | rfl
      · exact h.distinct i hi j hj (hij.trans (hold j hj))
      · exact absurd (hij.trans hself) (hnew i hi)
    · rw [hself] at hij
      rcases Nat.lt_or_eq_of_le (Nat.le_of_lt_succ hj) with hj | rfl
      · exact absurd (hij.trans (hold j hj)).symm (hnew j hj)
      · rfl
  · intro i hi
    show TextAt (blit d.blocklist (d.bnum.toNat * MAX_BLOCKSIZE) _ 0 _) _ _
    rw [h.count]
    rcases Nat.lt_or_eq_of_le (Nat.le_of_lt_succ hi) with hi | rfl
    · have hlen := numText_length (num i)
      rw [hold i hi]
      refine textAt_blit_other (h.rows i hi) (.inl ?_)
      simp only [MAX_BLOCKSIZE]
      omega
    · rw [hself]
      exact textAt_blit (fun k _ => by rw [Nat.zero_add]) (Nat.lt_succ_self _)
  · have hfile := added_list (blanked d b) b f
    rw [hcount] at hfile
    refine ⟨_, hfile, ?_⟩
    refine recorded_of_row hrec.size hcount hroom (Nat.le_of_lt hroom) ?_ ?_
    · intro i hi hin
      have hlt : i < n := by omega
      rw [hold i hlt]
      exact hrec.records i hlt
    · intro _
      rw [hself]
      exact textAt_memOf _ _

/-- The text of a row. -/
theorem row_run (d : DNode) {bytes : Bytes} {i : Nat} {t : Str}
    (h : TextAt bytes (i * MAX_BLOCKSIZE) t) (ht : 0 ∉ t) (hlen : t.length < MAX_BLOCKSIZE)
    (hi : i < BLOCKNAME) : row bytes i d = .ok (t, d) := by
  have hroom : t.length < BLOCKNAME * MAX_BLOCKSIZE - i * MAX_BLOCKSIZE := by
    simp only [BLOCKNAME, MAX_BLOCKSIZE] at hi hlen ⊢
    omega
  unfold row
  rw [textFrom_eq h ht hroom]
  rfl

theorem setRow_run (d : DNode) {i : Nat} {s : Str} (hi : i < BLOCKNAME)
    (hlen : s.length < MAX_BLOCKSIZE) :
    setRow i s d = .ok ((), { d with
      blocklist :=
        blit d.blocklist (i * MAX_BLOCKSIZE) (memOf s fun _ => 0) 0 (s.length + 1) }) := by
  have hroom : i * MAX_BLOCKSIZE + s.length + 1 ≤ BLOCKNAME * MAX_BLOCKSIZE := by
    simp only [BLOCKNAME, MAX_BLOCKSIZE] at hi hlen ⊢
    omega
  unfold setRow
  rw [if_pos hroom]
  rfl

/-- The rows from `i` on that are in use do not hold `p`. -/
theorem deleteRows_none {p : Str} {fuel i : Nat} (delnum : Int)
    (hrow : ∀ j, i ≤ j → j < d.bnum.toNat → ∃ t, row d.blocklist j d = .ok (t, d) ∧ t ≠ p)
    (hfuel : 0 < fuel) (hend : d.bnum.toNat < i + fuel) :
    deleteRows p fuel i delnum d = .ok (delnum, d) := by
  induction fuel generalizing i with
  | zero => exact absurd hfuel (Nat.lt_irrefl 0)
  | succ fuel ih =>
    rw [deleteRows, bind_run (show (get : DM DNode) d = .ok (d, d) from rfl)]
    by_cases hi : i < d.bnum.toNat
    · obtain ⟨t, ht, hne⟩ := hrow i (Nat.le_refl i) hi
      rw [if_pos hi, bind_run ht, if_neg hne]
      exact ih (fun j hj => hrow j (by omega)) (by omega) (by omega)
    · rw [if_neg hi]
      rfl

/-- The last number in the place of number `m`. -/
def filled (d : DNode) (m : Nat) (last : UInt64) : DNode :=
  { d with
    blocklist := blit d.blocklist (m * MAX_BLOCKSIZE) (memOf (numText last) fun _ => 0) 0
      ((numText last).length + 1)
    bnum := d.bnum - 1 }

/-- Number `m` leaves the list. -/
def without (num : Nat → UInt64) (n m : Nat) : Nat → UInt64 :=
  Function.update num m (num (n - 1))

/-- The row of a number that is listed. -/
theorem Listing.row (h : Listing d n num) {i : Nat} (hi : i < n) :
    row d.blocklist i d = .ok (numText (num i), d) := by
  have hlen := numText_length (num i)
  have hlow := lt_of_lt_of_le hi h.fits
  exact row_run d (h.rows i hi) (nul_notin_numText _) (by simp only [MAX_BLOCKSIZE]; omega) hlow

theorem filled_rows (h : Listing d n num) {m : Nat} (hm : m < n) {i : Nat} (hi : i < n - 1) :
    TextAt (filled d m (num (n - 1))).blocklist (i * MAX_BLOCKSIZE)
      (numText (without num n m i)) := by
  show TextAt (blit d.blocklist (m * MAX_BLOCKSIZE) _ 0 _) _ _
  by_cases him : i = m
  · subst him
    have hself : without num n i i = num (n - 1) := Function.update_self _ _ _
    rw [hself]
    exact textAt_blit (fun k _ => by rw [Nat.zero_add]) (Nat.lt_succ_self _)
  · have hother : without num n m i = num i := Function.update_of_ne him _ _
    have hlen := numText_length (num i)
    have hlen' := numText_length (num (n - 1))
    rw [hother]
    refine textAt_blit_other (h.rows i (by omega)) ?_
    simp only [MAX_BLOCKSIZE]
    omega

theorem filled_count (h : Listing d n num) {m : Nat} (hm : m < n) :
    (filled d m (num (n - 1))).bnum.toNat = n - 1 := by
  have hcount := h.count
  have hone : (1 : UInt64) ≤ d.bnum := by
    rw [UInt64.le_iff_toNat_le, hcount]
    exact Nat.succ_le_of_lt (Nat.zero_lt_of_lt hm)
  show (d.bnum - 1).toNat = n - 1
  rw [UInt64.toNat_sub_of_le _ _ hone, hcount]
  rfl

/-- No two rows hold one number, so the loop finds it once. -/
theorem deleteRows_found {fuel i m : Nat} (delnum : Int) (h : Listing d n num)
    (him : i ≤ m) (hm : m < n) (hend : n < i + fuel) :
    deleteRows (numText (num m)) fuel i delnum d = .ok ((m : Int), filled d m (num (n - 1))) := by
  have hfits := h.fits
  induction fuel generalizing i with
  | zero => omega
  | succ fuel ih =>
    have hi : i < d.bnum.toNat := by
      rw [h.count]
      omega
    rw [deleteRows, bind_run (show (get : DM DNode) d = .ok (d, d) from rfl), if_pos hi,
      bind_run (h.row (lt_of_le_of_lt him hm))]
    rcases Nat.lt_or_eq_of_le him with hlt | rfl
    · have hne : numText (num i) ≠ numText (num m) := fun heq =>
        absurd (h.distinct i (by omega) m hm (numText_inj heq)) (Nat.ne_of_lt hlt)
      rw [if_neg hne]
      exact ih hlt (by omega)
    · have hlen := numText_length (num (n - 1))
      have hset := setRow_run d (lt_of_lt_of_le hm hfits)
        (show (numText (num (n - 1))).length < MAX_BLOCKSIZE by simp only [MAX_BLOCKSIZE]; omega)
      have hlast : row d.blocklist (d.bnum.toNat - 1) d = .ok (numText (num (n - 1)), d) := by
        rw [h.count]
        exact h.row (by omega)
      -- What stands behind row `i` now are the numbers that stood there, less the last one.
      have hrest : ∀ j, i + 1 ≤ j → j < (filled d i (num (n - 1))).bnum.toNat →
          ∃ t, Blockman.row (filled d i (num (n - 1))).blocklist j (filled d i (num (n - 1)))
            = .ok (t, filled d i (num (n - 1))) ∧ t ≠ numText (num i) := by
        intro j hij hj
        rw [filled_count h hm] at hj
        have hother : without num n i j = num j := Function.update_of_ne (by omega) _ _
        have hlenj := numText_length (num j)
        have hat := filled_rows h hm hj
        rw [hother] at hat
        refine ⟨_, row_run _ hat (nul_notin_numText _) ?_ ?_, fun heq => ?_⟩
        · simp only [MAX_BLOCKSIZE]
          omega
        · omega
        · exact absurd (h.distinct j (by omega) i hm (numText_inj heq)) (by omega)
      have hdone : deleteRows (numText (num i)) fuel (i + 1) i (filled d i (num (n - 1)))
          = .ok ((i : Int), filled d i (num (n - 1))) := by
        apply deleteRows_none (i : Int) hrest (by omega)
        rw [filled_count h hm]
        omega
      rw [if_pos rfl, bind_run hlast, bind_run hset]
      exact hdone

/-- A list is made of the rows, the count and the file. -/
theorem Listing.frame (h : Listing d n num) {d' : DNode} (hbnum : d'.bnum = d.bnum)
    (hrows : d'.blocklist = d.blocklist)
    (hfile : d'.files BLOCKLISTPATH = d.files BLOCKLISTPATH) : Listing d' n num where
  count := by rw [hbnum, h.count]
  fits := h.fits
  distinct := h.distinct
  rows := by rw [hrows]; exact h.rows
  file := by rw [hfile]; exact h.file

theorem Listing.opens (h : Listing d n num) {f : File} (hf : d.files BLOCKLISTPATH = some f)
    (ho : d.env.opens 0 = true) : ListOpens d f := by
  obtain ⟨hshort, -, -⟩ := count_text h.count h.fits
  exact ⟨ho, hf, by omega⟩

theorem without_distinct (h : Listing d n num) {m : Nat} (hm : m < n) :
    ∀ i < n - 1, ∀ j < n - 1, without num n m i = without num n m j → i = j := by
  intro i hi j hj hij
  have hlast := h.distinct (n - 1) (by omega)
  unfold without at hij
  by_cases him : i = m <;> by_cases hjm : j = m
  · rw [him, hjm]
  · rw [him, Function.update_self, Function.update_of_ne hjm] at hij
    exact absurd (hlast j (by omega) hij) (by omega)
  · rw [hjm, Function.update_self, Function.update_of_ne him] at hij
    exact absurd (hlast i (by omega) hij.symm) (by omega)
  · rw [Function.update_of_ne him, Function.update_of_ne hjm] at hij
    exact h.distinct i (by omega) j (by omega) hij

/-- The node once the list file has been opened and written. -/
def stored (d : DNode) (g : File) : DNode :=
  { opened d with files := Function.update d.files BLOCKLISTPATH (some g) }

theorem stored_list (d : DNode) (g : File) : (stored d g).files BLOCKLISTPATH = some g := by
  have hfiles : (stored d g).files = Function.update d.files BLOCKLISTPATH (some g) := rfl
  rw [hfiles, update_same]

theorem stored_other (d : DNode) (g : File) {p : Str} (hp : p ≠ BLOCKLISTPATH) :
    (stored d g).files p = d.files p := by
  have hfiles : (stored d g).files = Function.update d.files BLOCKLISTPATH (some g) := rfl
  rw [hfiles, update_ne hp]

/-- The node once number `m` has left both lists. -/
def dropped (d : DNode) (m : Nat) (last : UInt64) (f : File) : DNode :=
  stored (filled d m last) (recorded f (filled d m last) (m + 1)
    fun k => (filled d m last).blocklist (m * MAX_BLOCKSIZE + k))

theorem deletelist_run {m : Nat} {f : File} (h : Listing d n num) (hm : m < n)
    (hf : d.files BLOCKLISTPATH = some f) (ho : d.env.opens 0 = true)
    (hnum : (numText (num m)).length + 1 ≤ 2 + d.env.slack) :
    deletelist (num m) d = .ok (0, dropped d m (num (n - 1)) f) := by
  have hfits := h.fits
  obtain ⟨hshort, -, -⟩ := count_text (filled_count h hm) (by omega)
  have hopens : ListOpens (filled d m (num (n - 1))) f := ⟨ho, hf, by omega⟩
  have hin : 0 ≤ (m : Int) ∧ (m : Int).toNat * MAX_BLOCKSIZE + BLOCKNAME
      ≤ BLOCKNAME * MAX_BLOCKSIZE := by
    simp only [BLOCKNAME, MAX_BLOCKSIZE] at hfits ⊢
    omega
  have hloop := deleteRows_found (s32 (getLE d.env.stray 0 4)) h (Nat.zero_le m) hm
    (show n < 0 + (d.bnum.toNat + 1) by rw [h.count]; omega)
  have hstore := storeList_run hopens (m + 1) fun k =>
    (filled d m (num (n - 1))).blocklist (m * MAX_BLOCKSIZE + k)
  rw [Nat.cast_succ] at hstore
  unfold deletelist
  rw [bind_run (sprintf_run hnum), bind_run (show (get : DM DNode) d = .ok (d, d) from rfl),
    bind_run hloop, bind_run (show (get : DM DNode) _ = .ok (_, filled d m (num (n - 1))) from rfl),
    if_pos hin, Int.toNat_natCast]
  exact hstore

/-- A listed number leaves both lists. -/
theorem dropped_lists {m : Nat} {f : File} (h : Listing d n num) (hm : m < n)
    (hf : d.files BLOCKLISTPATH = some f) :
    Listing (dropped d m (num (n - 1)) f) (n - 1) (without num n m) := by
  obtain ⟨g, hg, hrec⟩ := h.file
  cases hf.symm.trans hg
  have hfits := h.fits
  have hcount := filled_count h hm
  refine ⟨hcount, by omega, without_distinct h hm, fun i hi => filled_rows h hm hi,
    _, stored_list _ _, ?_⟩
  refine recorded_of_row hrec.size hcount (by omega) (by omega) (fun i hi him => ?_) fun hlt => ?_
  · have hother : without num n m i = num i := Function.update_of_ne him _ _
    rw [hother]
    exact hrec.records i (by omega)
  · intro k hk
    show (filled d m (num (n - 1))).blocklist (m * MAX_BLOCKSIZE + (0 + k)) = _
    rw [Nat.zero_add]
    exact filled_rows h hm hlt k hk

/-- What `delnum` holds leads to no record in front of the first one and to no row outside the
table: the `fseek` fails, or a row is written back. -/
def Spared (d : DNode) : Prop :=
  -2 ^ 31 ≤ (s32 (getLE d.env.stray 0 4) + 1) * BLOCKNAME ∧
    s32 (getLE d.env.stray 0 4) + 1 < 0 ∨
  0 ≤ s32 (getLE d.env.stray 0 4) ∧ s32 (getLE d.env.stray 0 4) < BLOCKNAME

/-- The rows and the files of the blocks are the same. -/
structure SameBlocks (d d' : DNode) : Prop where
  bnum : d'.bnum = d.bnum
  rows : d'.blocklist = d.blocklist
  blolist : d'.blolist = d.blolist
  files : ∀ p ≠ BLOCKLISTPATH, d'.files p = d.files p

theorem storeList_before {f : File} {i : Int} {name : Option Bytes} (h : ListOpens d f)
    (hlow : -2 ^ 31 ≤ i * BLOCKNAME) (hneg : i < 0) :
    storeList i name d = .ok (-1, stored d (counted f d)) := by
  have hcount : (decimal 0 (s64 (opened d).bnum.toNat)).length + 1 ≤ 4 + (opened d).env.slack :=
    h.count
  unfold storeList
  rw [bind_run (fopen_run ..), if_pos h.opens, h.file]
  dsimp only
  rw [bind_run (show (get : DM DNode) (opened d) = .ok (opened d, opened d) from rfl),
    bind_run (sprintf_run hcount), bind_run (setFile_run ..), if_neg (Int.not_lt.mpr hlow),
    if_pos hneg]
  rfl

/-- An unlisted number leaves both lists as they are if `delnum` does. -/
theorem deletelist_none (h : Listing d n num) (hnone : ∀ i < n, num i ≠ b)
    (ho : d.env.opens 0 = true) (hnum : (numText b).length + 1 ≤ 2 + d.env.slack)
    (hspared : Spared d) :
    ∃ r d', deletelist b d = .ok (r, d') ∧ SameBlocks d d' ∧ Listing d' n num := by
  obtain ⟨f, hf, hrec⟩ := h.file
  have hopens := h.opens hf ho
  have hrows : ∀ j, 0 ≤ j → j < d.bnum.toNat →
      ∃ t, Blockman.row d.blocklist j d = .ok (t, d) ∧ t ≠ numText b := by
    intro j _ hj
    rw [h.count] at hj
    exact ⟨_, h.row hj, fun heq => hnone j hj (numText_inj heq)⟩
  have hloop := deleteRows_none (s32 (getLE d.env.stray 0 4)) hrows
    (Nat.succ_pos d.bnum.toNat) (by omega)
  have hkeep : ∀ g r, Recorded g n num →
      storeList (s32 (getLE d.env.stray 0 4) + 1)
        (if 0 ≤ s32 (getLE d.env.stray 0 4) ∧
            (s32 (getLE d.env.stray 0 4)).toNat * MAX_BLOCKSIZE + BLOCKNAME
              ≤ BLOCKNAME * MAX_BLOCKSIZE then
          some fun k => d.blocklist ((s32 (getLE d.env.stray 0 4)).toNat * MAX_BLOCKSIZE + k)
        else none) d
        = .ok (r, stored d g) →
      ∃ r d', deletelist b d = .ok (r, d') ∧ SameBlocks d d' ∧ Listing d' n num := by
    intro g r hg hstore
    refine ⟨r, stored d g, ?_, ⟨rfl, rfl, rfl, fun p hp => stored_other d g hp⟩,
      ⟨h.count, h.fits, h.distinct, h.rows, g, stored_list d g, hg⟩⟩
    unfold deletelist
    rw [bind_run (sprintf_run hnum), bind_run (show (get : DM DNode) d = .ok (d, d) from rfl),
      bind_run hloop, bind_run (show (get : DM DNode) d = .ok (d, d) from rfl)]
    exact hstore
  rcases hspared with ⟨hlow, hneg⟩ | ⟨hpos, hlt⟩
  · exact hkeep _ _ (recorded_of_count hrec.size h.count h.fits hrec.records)
      (storeList_before hopens hlow hneg)
  · obtain ⟨k, hk⟩ := Int.eq_ofNat_of_zero_le hpos
    rw [hk] at hkeep hlt
    have hin : 0 ≤ (k : Int) ∧ (k : Int).toNat * MAX_BLOCKSIZE + BLOCKNAME
        ≤ BLOCKNAME * MAX_BLOCKSIZE := by
      simp only [BLOCKNAME, MAX_BLOCKSIZE] at hlt ⊢
      omega
    have hstore := storeList_run hopens (k + 1) fun j => d.blocklist (k * MAX_BLOCKSIZE + j)
    rw [Nat.cast_succ] at hstore
    rw [if_pos hin, Int.toNat_natCast] at hkeep
    refine hkeep _ _ (recorded_of_row hrec.size h.count h.fits ?_ (fun i hi _ => hrec.records i hi)
      fun hkn j hj => ?_) hstore
    · simp only [BLOCKNAME] at hlt ⊢
      omega
    · show d.blocklist (k * MAX_BLOCKSIZE + (0 + j)) = _
      rw [Nat.zero_add]
      exact h.rows k hkn j hj

/-- The node behind the first half of `deleteblock`. -/
def unlinked (d : DNode) (b : UInt64) : DNode :=
  { opened d with
    files := if d.env.opens 0 then Function.update d.files (pathOf b) none else d.files }

theorem deleteblock_run {r : Int} {d' : DNode} (ht : TextFits d b)
    (h : deletelist b (unlinked d b) = .ok (r, d')) : deleteblock b d = .ok (0, d') := by
  have hlist : ∀ t, t = unlinked d b → (do let _ ← deletelist b; return 0 : DM Int) t
    = .ok (0, d') := by
    intro t ht
    rw [ht, bind_run h]
    rfl
  unfold deleteblock
  rw [bind_run (getpath_run ht), bind_run (fopen_run ..)]
  cases ho : d.env.opens 0 with
  | false =>
    refine hlist _ ?_
    unfold unlinked
    rw [ho]
    rfl
  | true =>
    cases hf : d.files (pathOf b) with
    | none =>
      refine hlist _ ?_
      have hsame : Function.update d.files (pathOf b) none = d.files := by
        rw [← hf, Function.update_eq_self]
      unfold unlinked
      rw [ho, if_pos rfl, hsame]
      rfl
    | some f =>
      refine hlist _ ?_
      unfold unlinked
      rw [ho]
      rfl

theorem unlinked_list (d : DNode) (b : UInt64) :
    (unlinked d b).files BLOCKLISTPATH = d.files BLOCKLISTPATH := by
  show (if d.env.opens 0 then Function.update d.files (pathOf b) none else d.files) _ = _
  split
  · exact update_ne (pathOf_ne_list b).symm
  · rfl

theorem deleteblock_lists {m : Nat} (h : Listing d n num) (hm : m < n)
    (ho : d.env.opens 1 = true) (ht : TextFits d (num m)) :
    ∃ d', deleteblock (num m) d = .ok (0, d') ∧ Listing d' (n - 1) (without num n m) := by
  have hun : Listing (unlinked d (num m)) n num := h.frame rfl rfl (unlinked_list d _)
  obtain ⟨f, hf, -⟩ := hun.file
  exact ⟨_, deleteblock_run ht (deletelist_run hun hm hf ho ht.num), dropped_lists hun hm hf⟩

theorem deleteblock_none (h : Listing d n num) (hnone : ∀ i < n, num i ≠ b)
    (ho : d.env.opens 1 = true) (ht : TextFits d b) (hspared : Spared d) :
    ∃ d', deleteblock b d = .ok (0, d') ∧ SameBlocks (unlinked d b) d' ∧ Listing d' n num := by
  have hun : Listing (unlinked d b) n num := h.frame rfl rfl (unlinked_list d b)
  obtain ⟨r, d', hrun, hsame, hlist⟩ := deletelist_none hun hnone ho ht.num hspared
  exact ⟨d', deleteblock_run ht hrun, hsame, hlist⟩

/-- The text of a record, as `fread` gets it. -/
theorem freadText_eq {f : File} {off m : Nat} {t : Str} (array : Bytes)
    (h : TextAt f.bytes off t) (hlen : t.length < m) (hsize : off + m ≤ f.size) :
    ∃ rest, freadText f off m array = t ++ 0 :: rest := by
  have hread : (freadText f off m array).length = m := by
    unfold freadText
    rw [List.length_map, List.length_range]
  have hget : ∀ k (hk : k < (freadText f off m array).length),
      (freadText f off m array)[k] = f.bytes (off + k) := by
    intro k hk
    simp only [freadText, List.getElem_map, List.getElem_range]
    exact if_pos (by omega)
  have hlt : t.length < (freadText f off m array).length := by omega
  have htake : (freadText f off m array).take t.length = t := by
    apply List.ext_getElem (by rw [List.length_take]; omega)
    intro k hk hk'
    rw [List.getElem_take, hget k (by omega)]
    exact h.char hk'
  have hnul : (freadText f off m array)[t.length] = 0 := (hget _ hlt).trans h.stop
  refine ⟨(freadText f off m array).drop (t.length + 1), ?_⟩
  calc freadText f off m array
      = (freadText f off m array).take t.length ++ (freadText f off m array).drop t.length :=
        (List.take_append_drop ..).symm
    _ = t ++ 0 :: (freadText f off m array).drop (t.length + 1) := by
        rw [htake, List.drop_eq_getElem_cons hlt, hnul]

theorem takeWhile_stop {t : Str} (ht : 0 ∉ t) (rest : Str) :
    (t ++ 0 :: rest).takeWhile (· ≠ 0) = t := by
  induction t with
  | nil => rfl
  | cons c t ih =>
    have hc : c ≠ 0 := fun hzero => ht (hzero ▸ List.mem_cons_self ..)
    rw [List.cons_append, List.takeWhile_cons_of_pos (by simpa using hc),
      ih fun hm => ht (List.mem_cons_of_mem _ hm)]

/-- One round of the loop. -/
theorem listRows_step {f : File} {fuel i : Nat} {temp : Bytes} (hn : d.bnum.toNat = n)
    (hfits : n ≤ BLOCKNAME) (hrec : Recorded f n num) (hi : i < n) :
    ∃ temp', listRows f (fuel + 1) i temp d = listRows f fuel (i + 1) temp' { d with
        blocklist := blit d.blocklist (i * MAX_BLOCKSIZE) (memOf (numText (num i)) fun _ => 0) 0
          ((numText (num i)).length + 1)
        blolist := Function.update d.blolist i (num i) } := by
  have hlen := numText_length (num i)
  have hnul := nul_notin_numText (num i)
  have hsize : (i + 1) * BLOCKNAME + BLOCKNAME ≤ f.size := by
    rw [hrec.size]
    simp only [BLOCKNAME] at hfits ⊢
    omega
  have hshort : (numText (num i)).length < BLOCKNAME := by
    simp only [BLOCKNAME]
    omega
  obtain ⟨rest, hrest⟩ := freadText_eq temp (hrec.records i hi) hshort hsize
  have hgood : ¬ (0 ∉ numText (num i) ++ 0 :: rest ∨ MAX_BLOCKSIZE ≤ i) := by
    rintro (hmem | hle)
    · exact hmem (List.mem_append_right _ (List.mem_cons_self ..))
    · simp only [BLOCKNAME, MAX_BLOCKSIZE] at hfits hle
      omega
  have hset := setRow_run d (lt_of_lt_of_le hi hfits)
    (show (numText (num i)).length < MAX_BLOCKSIZE by simp only [MAX_BLOCKSIZE]; omega)
  have hnum : atoull (numText (num i)) = num i := atoull_decimal _
  refine ⟨memOf (numText (num i) ++ 0 :: rest) temp, ?_⟩
  rw [listRows, bind_run (show (get : DM DNode) d = .ok (d, d) from rfl), hn, if_pos hi]
  dsimp only
  rw [hrest, if_neg hgood, takeWhile_stop hnul, bind_run hset]
  change listRows f fuel (i + 1) _ { d with
    blocklist := _, blolist := Function.update d.blolist i (atoull (numText (num i))) } = _
  rw [hnum]

/-- Both tables hold the first `i` numbers. -/
structure Filled (d : DNode) (num : Nat → UInt64) (i : Nat) : Prop where
  rows : ∀ j < i, TextAt d.blocklist (j * MAX_BLOCKSIZE) (numText (num j))
  table : ∀ j < i, d.blolist j = num j

theorem Filled.next {i : Nat} (h : Filled d num i) : Filled { d with
    blocklist := blit d.blocklist (i * MAX_BLOCKSIZE) (memOf (numText (num i)) fun _ => 0) 0
      ((numText (num i)).length + 1)
    blolist := Function.update d.blolist i (num i) } num (i + 1) := by
  constructor
  · intro j hj
    rcases Nat.lt_or_eq_of_le (Nat.le_of_lt_succ hj) with hj | rfl
    · have hlen := numText_length (num j)
      refine textAt_blit_other (h.rows j hj) (.inl ?_)
      simp only [MAX_BLOCKSIZE]
      omega
    · exact textAt_blit (fun k _ => by rw [Nat.zero_add]) (Nat.lt_succ_self _)
  · intro j hj
    rcases Nat.lt_or_eq_of_le (Nat.le_of_lt_succ hj) with hj | rfl
    · exact (Function.update_of_ne (Nat.ne_of_lt hj) _ _).trans (h.table j hj)
    · exact Function.update_self _ _ _

/-- The loop fills both tables and leaves the rest alone. -/
theorem listRows_fills {f : File} {fuel i : Nat} {temp : Bytes} (hn : d.bnum.toNat = n)
    (hfits : n ≤ BLOCKNAME)
    (hrec : Recorded f n num) (hi : i ≤ n) (hfuel : n < i + fuel) (hfilled : Filled d num i) :
    ∃ d', listRows f fuel i temp d = .ok ((), d') ∧ Filled d' num n ∧ d'.bnum = d.bnum ∧
      d'.files = d.files ∧ d'.env = d.env := by
  induction fuel generalizing i d temp with
  | zero => omega
  | succ fuel ih =>
    by_cases hlt : i < n
    · obtain ⟨temp', hstep⟩ := @listRows_step d n num f fuel i temp hn hfits hrec hlt
      rw [hstep]
      exact ih hn hlt (by omega) hfilled.next
    · obtain rfl : i = n := by omega
      refine ⟨d, ?_, hfilled, rfl, rfl, rfl⟩
      rw [listRows, bind_run (show (get : DM DNode) d = .ok (d, d) from rfl), hn, if_neg hlt]
      rfl

/-- The list file of a node names `n` different numbers. -/
structure OnFile (d : DNode) (n : Nat) (num : Nat → UInt64) : Prop where
  fits : n ≤ BLOCKNAME
  distinct : ∀ i < n, ∀ j < n, num i = num j → i = j
  file : ∃ f, d.files BLOCKLISTPATH = some f ∧ Recorded f n num

theorem onFile_of_listing (h : Listing d n num) : OnFile d n num := ⟨h.fits, h.distinct, h.file⟩

theorem OnFile.files {d' : DNode} (h : OnFile d n num) (hfiles : d'.files = d.files) :
    OnFile d' n num :=
  ⟨h.fits, h.distinct, hfiles ▸ h.file⟩

/-- Whatever memory holds, `getlist` makes it what the file says. -/
theorem getlist_restores (h : OnFile d n num) (ho : d.env.opens 0 = true) :
    ∃ d', getlist d = .ok (d'.bnum, d') ∧ Listing d' n num ∧ Filled d' num n ∧
      d'.files = d.files ∧ d'.env = (opened d).env := by
  obtain ⟨f, hf, hrec⟩ := h.file
  obtain ⟨t, hlen, hnul, hval, hat⟩ := hrec.count
  obtain ⟨rest, hrest⟩ := freadText_eq (opened d).env.stray hat hlen (by rw [hrec.size]; decide)
  have hfits := h.fits
  have hmem : ¬ 0 ∉ t ++ 0 :: rest := fun hmem =>
    hmem (List.mem_append_right _ (List.mem_cons_self ..))
  have hread : u64OfInt (s32 (u64OfInt (atoll (t ++ 0 :: rest)))) = n := by
    rw [atoll_stop, hval]
    simp only [BLOCKNAME] at hfits
    unfold s32 u64OfInt
    split <;> omega
  let e : DNode := { opened d with bnum := UInt64.ofNat n }
  have hcount : e.bnum.toNat = n := by
    change (UInt64.ofNat n).toNat = n
    simp only [BLOCKNAME] at hfits
    rw [UInt64.toNat_ofNat']
    omega
  have hfuel : n < 0 + (e.bnum.toNat + 1) := by
    rw [hcount]
    omega
  have hempty : Filled e num 0 :=
    ⟨fun j hj => absurd hj (Nat.not_lt_zero j), fun j hj => absurd hj (Nat.not_lt_zero j)⟩
  obtain ⟨d', hrun, hfilled, hbnum, hfiles, henv⟩ :=
    listRows_fills hcount hfits hrec (Nat.zero_le n) hfuel hempty
  refine ⟨d', ?_, ⟨?_, hfits, h.distinct, hfilled.rows, f, ?_, hrec⟩, hfilled, hfiles, henv⟩
  · have hset : (modify fun d => { d with bnum := UInt64.ofNat (u64OfInt (s32 (u64OfInt
        (atoll (t ++ 0 :: rest))))) } : DM PUnit) (opened d) = .ok ((), e) := by
      rw [hread]
      rfl
    unfold getlist
    rw [bind_run (fopen_run ..), if_pos ho, hf]
    dsimp only
    rw [bind_run (show (get : DM DNode) (opened d) = .ok (opened d, opened d) from rfl), hrest,
      if_neg hmem, bind_run hset, bind_run (show (get : DM DNode) e = .ok (e, e) from rfl),
      bind_run hrun, ← hbnum]
    rfl
  · rw [hbnum, hcount]
  · rw [hfiles]
    exact hf

/-- What `getlist` finds. -/
theorem getlist_lists (h : Listing d n num) (ho : d.env.opens 0 = true) :
    ∃ d', getlist d = .ok (d.bnum, d') ∧ ∀ i < n, d'.blolist i = num i := by
  obtain ⟨d', hrun, hlisting, hfilled, -⟩ := getlist_restores (onFile_of_listing h) ho
  have hcount : d'.bnum = d.bnum := UInt64.toNat_inj.mp (hlisting.count.trans h.count.symm)
  exact ⟨d', hcount ▸ hrun, hfilled.table⟩

end Calls

end Sbpfs.Dnode.ListSpec
