import Sbpfs.Cnode.DTree
import Sbpfs.Wire.HeadSpec

/-!
# The addresses of the data nodes

An address comes from the socket layer as text, goes to the file system as one number between
commas, and becomes text again in the client and in `__flit_read`.
-/
namespace Sbpfs.Libc.Hostname

open Sbpfs.Wire.Head Sbpfs.Wire.Number

/-- `get_dnode_hostname`; every part is kept in an unsigned char. -/
def getDnodeHostname (dnode : UInt32) : Str :=
  let i1 := (dnode / (256 * 256 * 256)).toUInt8
  let i2 := (dnode / (256 * 256) % 256).toUInt8
  let i3 := (dnode / 256 % 256).toUInt8
  let i4 := (dnode % 256).toUInt8
  List.intercalate [0x2e] ([i1, i2, i3, i4].map fun i => numeral 10 i.toNat)

end Sbpfs.Libc.Hostname

namespace Sbpfs.Cnode.Addresses

open Sbpfs.Wire.Head Sbpfs.Wire.HeadSpec Sbpfs.Wire.Number Sbpfs.Cnode.Libcfs Sbpfs.Cnode.DTree
open Sbpfs.Libc.Hostname

/-- An address of four octets. -/
structure Quad where
  (o1 o2 o3 o4 : UInt8)
  deriving DecidableEq, Repr

/-- The octets in plain decimal, with dots. -/
def Quad.text (q : Quad) : Str :=
  List.intercalate [0x2e] ([q.o1, q.o2, q.o3, q.o4].map fun o => numeral 10 o.toNat)

/-- The octets as the digits of a number. -/
def Quad.value (q : Quad) : Nat :=
  ((q.o1.toNat * 256 + q.o2.toNat) * 256 + q.o3.toNat) * 256 + q.o4.toNat

theorem Quad.value_lt (q : Quad) : q.value < 2 ^ 32 := by
  have h1 := q.o1.toNat_lt
  have h2 := q.o2.toNat_lt
  have h3 := q.o3.toNat_lt
  have h4 := q.o4.toNat_lt
  unfold Quad.value
  omega

/-! ## Cutting the list -/

/-- The copy of the list with a NUL in the place of every comma. -/
def closeCommas (tmp : Str) : Str := tmp.map (fun c => if c = 0x2c then 0 else c) ++ [0]

/-- The loop that fills `ips` from index `i` down, with the text of the address at `p`. -/
def ipsLoop : Nat → Str → Nat → List UInt32 → List UInt32
  | 0, buf, p, ips => iptoi (cstr buf p) :: ips
  | i + 1, buf, p, ips =>
    ipsLoop i buf (p + ((cstr buf p).length + 1)) (iptoi (cstr buf p) :: ips)

theorem closeCommas_free {s : Str} (h : 0x2c ∉ s) : closeCommas s = s ++ [0] := by
  have hmap : s.map (fun c => if c = 0x2c then 0 else c) = s.map id :=
    List.map_congr_left fun c hc => if_neg (ne_of_mem_of_not_mem hc h)
  rw [closeCommas, hmap, List.map_id]

theorem closeCommas_comma {s : Str} (h : 0x2c ∉ s) (t : Str) :
    closeCommas (s ++ 0x2c :: t) = s ++ 0 :: closeCommas t := by
  have hmap : s.map (fun c => if c = 0x2c then 0 else c) = s.map id :=
    List.map_congr_left fun c hc => if_neg (ne_of_mem_of_not_mem hc h)
  rw [closeCommas, List.map_append, List.map_cons, hmap, List.map_id, if_pos rfl,
    List.append_assoc, List.cons_append]
  rfl

/-- The loop over a list of pieces that starts behind `done`. -/
theorem ipsLoop_pieces {p : Str} {ps : List Str} (done : Str) (ips : List UInt32)
    (hfree : ∀ x ∈ p :: ps, 0 ∉ x ∧ 0x2c ∉ x) :
    ipsLoop ps.length (done ++ closeCommas (List.intercalate [0x2c] (p :: ps))) done.length ips
      = ((p :: ps).map iptoi).reverse ++ ips := by
  induction ps generalizing p done ips with
  | nil =>
    have hp := hfree p (List.mem_cons_self ..)
    rw [List.intercalate_singleton, closeCommas_free hp.2, List.length_nil, ipsLoop,
      cstr_append hp.1]
    rfl
  | cons q ps ih =>
    have hp := hfree p (List.mem_cons_self ..)
    have hnext := @ih q (done ++ (p ++ [0])) (iptoi p :: ips)
      fun x hx => hfree x (List.mem_cons_of_mem _ hx)
    have hsplit : List.intercalate [0x2c] (p :: q :: ps)
        = p ++ 0x2c :: List.intercalate [0x2c] (q :: ps) := by
      rw [List.intercalate_cons_cons, List.append_assoc, List.singleton_append]
    have hlen : (done ++ (p ++ [0])).length = done.length + (p.length + 1) := by
      simp only [List.length_append, List.length_singleton]
    rw [hlen] at hnext
    rw [hsplit, closeCommas_comma hp.2, List.length_cons, ipsLoop, cstr_append hp.1]
    rw [List.append_assoc, List.append_assoc, List.singleton_append] at hnext
    rw [hnext]
    simp only [List.map_cons, List.reverse_cons, List.append_assoc, List.cons_append,
      List.nil_append]

/-- Every list is one of pieces without commas, with one comma less than pieces. -/
theorem exists_pieces (tmp : Str) :
    ∃ p ps, tmp = List.intercalate [0x2c] (p :: ps)
      ∧ (∀ x ∈ p :: ps, 0x2c ∉ x ∧ x ⊆ tmp) ∧ tmp.count 0x2c = ps.length := by
  induction tmp with
  | nil => exact ⟨[], [], rfl, by simp, rfl⟩
  | cons c tmp ih =>
    obtain ⟨p, ps, htmp, hfree, hcount⟩ := ih
    have hkeep : ∀ x ∈ p :: ps, 0x2c ∉ x ∧ x ⊆ c :: tmp := fun x hx =>
      ⟨(hfree x hx).1, List.subset_cons_of_subset c (hfree x hx).2⟩
    by_cases hc : c = 0x2c
    · refine ⟨[], p :: ps, ?_, ?_, ?_⟩
      · rw [List.intercalate_cons_cons, ← htmp, hc]
        rfl
      · exact List.forall_mem_cons.mpr ⟨⟨List.not_mem_nil, List.nil_subset _⟩, hkeep⟩
      · rw [hc, List.count_cons_self, hcount, List.length_cons]
    · have hp := hfree p (List.mem_cons_self ..)
      refine ⟨c :: p, ps, ?_, ?_, ?_⟩
      · cases ps with
        | nil => rw [htmp, List.intercalate_singleton, List.intercalate_singleton]
        | cons q ps =>
          rw [htmp, List.intercalate_cons_cons, List.intercalate_cons_cons]
          rfl
      · exact List.forall_mem_cons.mpr
          ⟨⟨List.not_mem_cons_of_ne_of_not_mem (Ne.symm hc) hp.1, List.cons_subset_cons c hp.2⟩,
            fun x hx => hkeep x (List.mem_cons_of_mem _ hx)⟩
      · rw [List.count_cons_of_ne hc, hcount]

/-- The loop fills `ips` with the addresses between the commas. -/
theorem ipsLoop_eq {tmp : Str} (hnul : 0 ∉ tmp) :
    ipsLoop (tmp.count 0x2c) (closeCommas tmp) 0 [] = parseIps tmp := by
  obtain ⟨p, ps, htmp, hfree, hcount⟩ := exists_pieces tmp
  have hpieces : parseIps tmp = ((p :: ps).map iptoi).reverse := by
    rw [parseIps, htmp, List.splitOn_intercalate _ (fun x hx => (hfree x hx).1)
      (List.cons_ne_nil _ _)]
  have h := ipsLoop_pieces [] [] fun x hx =>
    ⟨fun h0 => hnul ((hfree x hx).2 h0), (hfree x hx).1⟩
  rw [List.nil_append, List.append_nil, ← htmp] at h
  rw [hcount, hpieces]
  exact h

/-! ## Text to number -/

/-- The loop collects the digits of an octet. -/
theorem iptoiLoop_digits {s rest tmp : Str} {n : Int} (hs : ∀ c ∈ s, isDigit c = true)
    (hlen : tmp.length + s.length < 4) :
    iptoiLoop (s ++ rest) tmp n = iptoiLoop rest (tmp ++ s) n := by
  induction s generalizing tmp with
  | nil => rw [List.nil_append, List.append_nil]
  | cons c s ih =>
    have hc := hs c (List.mem_cons_self ..)
    have hline : c ≠ 0x0a := fun h => absurd hc (h ▸ by decide)
    have hdot : c ≠ 0x2e := fun h => absurd hc (h ▸ by decide)
    simp only [List.length_cons] at hlen
    rw [List.cons_append, iptoiLoop, if_neg (by omega)]
    dsimp only
    rw [if_neg hline, if_neg hdot,
      ih (fun d hd => hs d (List.mem_cons_of_mem _ hd)) (by simp; omega),
      List.append_assoc, List.singleton_append]

theorem octet_length (o : UInt8) : (numeral 10 o.toNat).length ≤ 3 :=
  numeral_length (by decide) (o.toNat_lt.trans (by decide))

theorem atoll_octet (o : UInt8) : atoll (numeral 10 o.toNat) = o.toNat := by
  rw [← decimal_nat]
  exact atoll_decimal (o.toNat_lt.trans (by decide))

/-- An octet and the dot behind it. -/
theorem iptoiLoop_dot (o : UInt8) (rest : Str) (n : Int) :
    iptoiLoop (numeral 10 o.toNat ++ 0x2e :: rest) [] n
      = iptoiLoop rest [] ((n * 256 + o.toNat) % 2 ^ 32) := by
  have hlen := octet_length o
  rw [iptoiLoop_digits numeral_digits (by simp; omega), List.nil_append, iptoiLoop,
    if_neg (by omega)]
  dsimp only
  rw [if_neg (by decide), if_pos rfl, atoll_octet]

/-- The last octet. -/
theorem iptoiLoop_end (o : UInt8) (n : Int) :
    iptoiLoop (numeral 10 o.toNat) [] n
      = UInt32.ofNat ((n * 256 + o.toNat) % 2 ^ 32).toNat := by
  have hlen := octet_length o
  have h := @iptoiLoop_digits (numeral 10 o.toNat) [] [] n numeral_digits (by simp; omega)
  rw [List.append_nil, List.nil_append] at h
  rw [h, iptoiLoop, if_neg (by omega), atoll_octet]

/-- `iptoi` reads the number of an address. -/
theorem iptoi_text (q : Quad) : iptoi q.text = UInt32.ofNat q.value := by
  have h1 := q.o1.toNat_lt
  have h2 := q.o2.toNat_lt
  have h3 := q.o3.toNat_lt
  have h4 := q.o4.toNat_lt
  have htext : q.text = numeral 10 q.o1.toNat ++ 0x2e :: (numeral 10 q.o2.toNat
      ++ 0x2e :: (numeral 10 q.o3.toNat ++ 0x2e :: numeral 10 q.o4.toNat)) := by
    simp only [Quad.text, List.map_cons, List.map_nil, List.intercalate_cons_cons,
      List.intercalate_singleton, List.append_assoc, List.singleton_append]
  rw [iptoi, htext, iptoiLoop_dot, iptoiLoop_dot, iptoiLoop_dot, iptoiLoop_end]
  unfold Quad.value
  congr 1
  omega

/-! ## Number to text -/

/-- The client and the control node print a number alike. -/
theorem getDnodeHostname_eq (dnode : UInt32) : getDnodeHostname dnode = long2ip dnode.toNat := by
  have hlt := dnode.toNat_lt
  have h1 : (dnode / (256 * 256 * 256)).toUInt8.toNat = dnode.toNat / 2 ^ 24 % 256 := by
    rw [UInt32.toNat_toUInt8, UInt32.toNat_div]
    rfl
  have h2 : (dnode / (256 * 256) % 256).toUInt8.toNat = dnode.toNat / 2 ^ 16 % 256 := by
    rw [UInt32.toNat_toUInt8, UInt32.toNat_mod, UInt32.toNat_div]
    exact Nat.mod_mod _ _
  have h3 : (dnode / 256 % 256).toUInt8.toNat = dnode.toNat / 2 ^ 8 % 256 := by
    rw [UInt32.toNat_toUInt8, UInt32.toNat_mod, UInt32.toNat_div]
    exact Nat.mod_mod _ _
  have h4 : (dnode % 256).toUInt8.toNat = dnode.toNat % 256 := by
    rw [UInt32.toNat_toUInt8, UInt32.toNat_mod]
    exact Nat.mod_mod _ _
  unfold getDnodeHostname long2ip
  simp only [List.map_cons, List.map_nil, h1, h2, h3, h4]

/-- The octets are the digits of the number. -/
theorem long2ip_value (q : Quad) : long2ip q.value = q.text := by
  have h1 := q.o1.toNat_lt
  have h2 := q.o2.toNat_lt
  have h3 := q.o3.toNat_lt
  have h4 := q.o4.toNat_lt
  have hv : q.value = ((q.o1.toNat * 256 + q.o2.toNat) * 256 + q.o3.toNat) * 256 + q.o4.toNat := rfl
  have e1 : q.value / 2 ^ 24 % 256 = q.o1.toNat := by omega
  have e2 : q.value / 2 ^ 16 % 256 = q.o2.toNat := by omega
  have e3 : q.value / 2 ^ 8 % 256 = q.o3.toNat := by omega
  have e4 : q.value % 256 = q.o4.toNat := by omega
  unfold long2ip Quad.text
  simp only [List.map_cons, List.map_nil, e1, e2, e3, e4]

theorem iptoi_toNat (q : Quad) : (iptoi q.text).toNat = q.value := by
  rw [iptoi_text]
  exact Nat.mod_eq_of_lt q.value_lt

/-! ## The list -/

/-- Digits and dots make up an address. -/
theorem not_mem_text (q : Quad) {c : UInt8} (hdigit : isDigit c = false) (hdot : c ≠ 0x2e) :
    c ∉ q.text := by
  intro h
  have hoctet : ∀ o : UInt8, c ∉ numeral 10 o.toNat := fun o ho =>
    absurd ((numeral_digits _ ho).symm.trans hdigit) (by decide)
  simp only [Quad.text, List.map_cons, List.map_nil, List.intercalate_cons_cons,
    List.intercalate_singleton, List.mem_append, List.mem_singleton, hoctet, or_false, hdot] at h

theorem comma_not_mem (q : Quad) : 0x2c ∉ q.text := not_mem_text q (by decide) (by decide)

theorem nul_not_mem_join (qs : List Quad) : 0 ∉ List.intercalate [0x2c] (qs.map Quad.text) := by
  have hfree : ∀ q : Quad, 0 ∉ q.text := fun q => not_mem_text q (by decide) (by decide)
  induction qs with
  | nil => exact List.not_mem_nil
  | cons q qs ih =>
    cases qs with
    | nil =>
      rw [List.map_singleton, List.intercalate_singleton]
      exact hfree q
    | cons q' qs =>
      rw [List.map_cons, List.map_cons, List.intercalate_cons_cons]
      simp only [List.mem_append, List.mem_singleton, not_or]
      exact ⟨⟨hfree q, by decide⟩, ih⟩

theorem parseIps_join {qs : List Quad} (hne : qs ≠ []) :
    parseIps (List.intercalate [0x2c] (qs.map Quad.text))
      = (qs.map fun q => iptoi q.text).reverse := by
  have hfree : ∀ s ∈ qs.map Quad.text, 0x2c ∉ s := by
    intro s hs
    obtain ⟨q, _, rfl⟩ := List.mem_map.mp hs
    exact comma_not_mem q
  have hmap : qs.map Quad.text ≠ [] := fun h => hne (List.map_eq_nil_iff.mp h)
  unfold parseIps
  rw [List.splitOn_intercalate _ hfree hmap, List.map_map]
  rfl

/-- One number for each address, the last one first, as the loop puts them into `ips`; and every
address back from its number. -/
theorem parseIps_text {qs : List Quad} (hne : qs ≠ []) :
    parseIps (List.intercalate [0x2c] (qs.map Quad.text))
        = (qs.map fun q => iptoi q.text).reverse
      ∧ (∀ q ∈ qs, getDnodeHostname (iptoi q.text) = q.text
        ∧ long2ip (iptoi q.text).toNat = q.text)
      ∧ ipsLoop ((List.intercalate [0x2c] (qs.map Quad.text)).count 0x2c)
          (closeCommas (List.intercalate [0x2c] (qs.map Quad.text))) 0 []
        = (qs.map fun q => iptoi q.text).reverse := by
  refine ⟨parseIps_join hne, ?_, (ipsLoop_eq (nul_not_mem_join qs)).trans (parseIps_join hne)⟩
  · intro q _
    have hback : long2ip (iptoi q.text).toNat = q.text := by
      rw [iptoi_toNat, long2ip_value]
    exact ⟨(getDnodeHostname_eq _).trans hback, hback⟩

theorem parseIps_two :
    parseIps (ascii "10.0.0.1,192.168.1.200") = [0xc0a801c8, 0x0a000001]
      ∧ getDnodeHostname 0xc0a801c8 = ascii "192.168.1.200" := by
  have h := @parseIps_text [⟨10, 0, 0, 1⟩, ⟨192, 168, 1, 200⟩] (List.cons_ne_nil _ _)
  exact ⟨h.1, (h.2.1 ⟨192, 168, 1, 200⟩ (by decide)).1⟩

end Sbpfs.Cnode.Addresses
