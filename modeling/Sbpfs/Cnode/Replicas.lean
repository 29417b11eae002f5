import Sbpfs.Cfs.Invariants
import Sbpfs.Lib.Pack
import Sbpfs.Cnode.ReplyLaws

/-!
# Which replicas a reader is sent to

`addBlockInfo` enters a report of a data node in three maps, `dropUser` takes the node out of one
of them, and `__flit_read` looks the records of a reply up in two. What the maps hold is told
from the calls that were made.
-/
namespace Sbpfs.Cnode.Replicas

open Sbpfs.Lib.Program Sbpfs.Lib.Raise Sbpfs.Lib.Pack
open Sbpfs.Cfs.Data Sbpfs.Wire.Head
open Sbpfs.Cnode.Pool Sbpfs.Cnode.Libcfs Sbpfs.Cnode.DTree Sbpfs.Cnode.ReplyLaws

/-! ## The reply as a string of records -/

/-- `struct.unpack('QIIIIIBBBB', d)`, the reserved bytes apart. -/
def unpack (d : Str) : SendBlock × Str :=
  (⟨ofLE (slice d 0 8), ofLE (slice d 8 4), ofLE (slice d 12 4),
    [ofLE (slice d 16 4), ofLE (slice d 20 4), ofLE (slice d 24 4)]⟩, slice d 28 4)

/-- `struct.pack('QIIIIIBBBB', ...)`. -/
def pack (b : SendBlock) (reserved : Str) : Str :=
  toLE 8 b.blockNum ++ (toLE 4 b.offset ++ (toLE 4 b.length ++
    ((b.ip.map (toLE 4)).flatten ++ reserved)))

/-- The rounds of the loop for the given numbers of records. -/
def flitLoop (data : Str) : List Nat → Py Str
  | [] => return []
  | i :: is => do
    let (b, reserved) := unpack (slice data (32 * i) 32)
    let b ← flitBlock b
    let ret ← flitLoop data is
    return pack b reserved ++ ret

/-- `__flit_read` with its argument as the string that it is. -/
def flitData (data : Str) : Py Str := flitLoop data (List.range (data.length / 32))

/-! ## Calls -/

/-- A call of `addBlockInfo`, with the order of the keys then, or of `dropUser`. -/
inductive Event where
  | report (order : List Str) (l : List Nat) (user ip : Str)
  | drop (user : Str)

def Event.run : Event → Py Unit
  | .report order l user ip => addBlockInfo order l user ip
  | .drop user => dropUser user

/-- `order` lists the keys of the dictionary. -/
def Event.Allowed (n : CtrlNode) : Event → Prop
  | .report order _ user ip => order.Perm (n.ipmap.insert user ip).keys
  | .drop _ => True

/-- The calls that led from a server just started to this state, the last one first. -/
inductive History : List Event → CtrlNode → Prop
  | start {n : CtrlNode} (blockmap : n.blockmap = ∅) (ipmap : n.ipmap = ∅) (ips : n.ips = []) :
      History [] n
  | call {hist : List Event} {n n' : CtrlNode} {e : Event} (before : History hist n)
      (allowed : e.Allowed n) (run : e.run n = .ok (.ok (), n')) : History (e :: hist) n'

/-- The user has reported the block. -/
def Reported (hist : List Event) (block : Nat) (user : Str) : Prop :=
  ∃ order l ip, .report order l user ip ∈ hist ∧ block ∈ l

/-- The address under which the user is registered. -/
def address : List Event → Str → Option Str
  | [], _ => none
  | .report _ _ user ip :: hist, u => if u = user then some ip else address hist u
  | .drop user :: hist, u => if u = user then none else address hist u

/-- A registered user has been dropped after the last report. -/
def Stale : List Event → Prop
  | [] => False
  | .report .. :: _ => False
  | .drop user :: hist => Stale hist ∨ (address hist user).isSome

/-- The block has been reported, and whoever has reported it is registered. -/
def Known (hist : List Event) (block : Nat) : Prop :=
  (∃ user, Reported hist block user) ∧ ∀ user, Reported hist block user → (address hist user).isSome

/-- The address is that of a registered user who has reported the block. -/
def Keeps (hist : List Event) (block ip : Nat) : Prop :=
  ∃ user, Reported hist block user ∧ address hist user = some (long2ip ip)

/-- `ips` lists the addresses of the registered users, in some order. -/
def IpsExact (n : CtrlNode) : Prop :=
  ∃ order : List Str, order.Perm n.ipmap.keys ∧
    n.ips = List.intercalate [0x2c] (order.filterMap fun key => n.ipmap.lookup key)

/-! ## The maps -/

section Maps

variable {hist : List Event} {n n' : CtrlNode}

theorem report_run (order : List Str) (l : List Nat) (user ip : Str) (n : CtrlNode) :
    ∃ n', addBlockInfo order l user ip n = .ok (.ok (), n') ∧
      n'.ipmap = n.ipmap.insert user ip ∧
      n'.ips = List.intercalate [0x2c] (order.filterMap fun key => n'.ipmap.lookup key) ∧
      n'.blockmap = l.foldl (fun m block =>
        m.insert block (insert user ((m.lookup block).getD ∅))) n.blockmap :=
  ⟨_, rfl, rfl, rfl, rfl⟩

theorem report_blocks (l : List Nat) (user : Str) (m : Map Nat (Finset Str)) (block : Nat) :
    (l.foldl (fun m block => m.insert block (insert user ((m.lookup block).getD ∅))) m).lookup block
      = if block ∈ l then some (insert user ((m.lookup block).getD ∅)) else m.lookup block := by
  induction l generalizing m with
  | nil => rfl
  | cons b l ih =>
    rw [List.foldl_cons, ih]
    by_cases hb : block = b
    · subst hb
      rw [AList.lookup_insert, Option.getD_some, Finset.insert_idem,
        if_pos (List.mem_cons_self ..)]
      split <;> rfl
    · rw [AList.lookup_insert_ne hb]
      simp only [List.mem_cons, hb, false_or]

theorem address_eq (h : History hist n) (u : Str) : n.ipmap.lookup u = address hist u := by
  induction h generalizing u with
  | start blockmap ipmap ips =>
    rw [ipmap]
    rfl
  | @call hist n n' e before allowed run ih =>
    cases e with
    | report order l user ip =>
      cases run
      show (n.ipmap.insert user ip).lookup u = if u = user then some ip else address hist u
      by_cases hu : u = user
      · subst hu
        rw [AList.lookup_insert, if_pos rfl]
      · rw [AList.lookup_insert_ne hu, if_neg hu, ih]
    | drop user =>
      cases run
      show (n.ipmap.erase user).lookup u = if u = user then none else address hist u
      by_cases hu : u = user
      · subst hu
        rw [AList.lookup_erase, if_pos rfl]
      · rw [AList.lookup_erase_ne hu, if_neg hu, ih]

theorem reported_cons {e : Event} {block : Nat} {user : Str} :
    Reported (e :: hist) block user ↔
      (∃ order l ip, e = .report order l user ip ∧ block ∈ l) ∨ Reported hist block user := by
  unfold Reported
  constructor
  · intro h
    obtain ⟨order, l, ip, hm, hb⟩ := h
    rcases List.mem_cons.mp hm with he | hm
    · exact .inl ⟨order, l, ip, he.symm, hb⟩
    · exact .inr ⟨order, l, ip, hm, hb⟩
  · intro h
    rcases h with h | h
    · obtain ⟨order, l, ip, he, hb⟩ := h
      exact ⟨order, l, ip, he ▸ List.mem_cons_self .., hb⟩
    · obtain ⟨order, l, ip, hm, hb⟩ := h
      exact ⟨order, l, ip, List.mem_cons_of_mem _ hm, hb⟩

/-- The users that `blockmap` has for a block are those that have reported it. -/
theorem reported_iff (h : History hist n) (block : Nat) (user : Str) :
    user ∈ (n.blockmap.lookup block).getD ∅ ↔ Reported hist block user := by
  induction h with
  | start blockmap ipmap ips =>
    rw [blockmap]
    constructor
    · intro hu
      exact absurd hu (Finset.notMem_empty user)
    · intro hu
      obtain ⟨order, l, ip, hm, -⟩ := hu
      cases hm
  | @call hist n n' e before allowed run ih =>
    rw [reported_cons]
    cases e with
    | report order l u ip =>
      obtain ⟨n₁, hrun, -, -, hblocks⟩ := report_run order l u ip n
      cases hrun.symm.trans run
      rw [hblocks, report_blocks]
      by_cases hb : block ∈ l
      · rw [if_pos hb, Option.getD_some, Finset.mem_insert, ih]
        constructor
        · intro h
          rcases h with rfl | h
          · exact .inl ⟨order, l, ip, rfl, hb⟩
          · exact .inr h
        · intro h
          rcases h with h | h
          · obtain ⟨order', l', ip', he, -⟩ := h
            cases he
            exact .inl rfl
          · exact .inr h
      · rw [if_neg hb, ih]
        constructor
        · exact .inr
        · intro h
          rcases h with h | h
          · obtain ⟨order', l', ip', he, hb'⟩ := h
            cases he
            exact absurd hb' hb
          · exact h
    | drop u =>
      cases run
      show user ∈ (n.blockmap.lookup block).getD ∅ ↔ _
      rw [ih]
      constructor
      · exact .inr
      · intro h
        rcases h with h | h
        · obtain ⟨order', l', ip', he, -⟩ := h
          cases he
        · exact h

/-- No block stands in `blockmap` without a user. -/
theorem blockmap_nonempty (h : History hist n) {block : Nat} {users : Finset Str}
    (hu : n.blockmap.lookup block = some users) : users.Nonempty := by
  induction h with
  | start blockmap ipmap ips =>
    rw [blockmap] at hu
    cases hu
  | @call hist n n' e before allowed run ih =>
    cases e with
    | report order l u ip =>
      obtain ⟨n₁, hrun, -, -, hblocks⟩ := report_run order l u ip n
      cases hrun.symm.trans run
      rw [hblocks, report_blocks] at hu
      split at hu
      · cases hu
        exact Finset.insert_nonempty _ _
      · exact ih hu
    | drop u =>
      cases run
      exact ih hu

theorem located_iff (h : History hist n) (block : Nat) : Located n block ↔ Known hist block := by
  have hreported := reported_iff h block
  unfold Located Known
  constructor
  · intro hl
    obtain ⟨users, hu, hall⟩ := hl
    rw [hu, Option.getD_some] at hreported
    obtain ⟨user, huser⟩ := blockmap_nonempty h hu
    refine ⟨⟨user, (hreported user).mp huser⟩, fun user hr => ?_⟩
    rw [← address_eq h]
    exact hall user ((hreported user).mpr hr)
  · intro hk
    obtain ⟨⟨user, hr⟩, hall⟩ := hk
    cases hu : n.blockmap.lookup block with
    | none =>
      rw [hu] at hreported
      exact absurd ((hreported user).mpr hr) (Finset.notMem_empty user)
    | some users =>
      rw [hu, Option.getD_some] at hreported
      refine ⟨users, rfl, fun user huser => ?_⟩
      rw [address_eq h]
      exact hall user ((hreported user).mp huser)

end Maps

/-! ## The filter -/

/-- Record `i` of a reply. -/
def recordAt (data : Str) (i : Nat) : Str := slice data (32 * i) 32

/-- `d'` is the record `d` with every address zeroed that is not kept. -/
structure Filtered (hist : List Event) (d d' : Str) : Prop where
  length : d'.length = 32
  front : slice d' 0 16 = slice d 0 16
  reserved : slice d' 28 4 = slice d 28 4
  kept : ∀ j < 3, Keeps hist (unpack d).1.blockNum (ofLE (slice d (16 + 4 * j) 4)) →
    slice d' (16 + 4 * j) 4 = slice d (16 + 4 * j) 4
  zeroed : ∀ j < 3, ¬ Keeps hist (unpack d).1.blockNum (ofLE (slice d (16 + 4 * j) 4)) →
    slice d' (16 + 4 * j) 4 = List.replicate 4 0

/-- `__flit_read` returns the records of its argument, filtered, and changes nothing. -/
def FlitsExactly (hist : List Event) (data : Str) (n : CtrlNode) : Prop :=
  ∃ data', flitData data n = .ok (.ok data', n) ∧ data'.length = data.length ∧
    ∀ i < data.length / 32, Filtered hist (recordAt data i) (recordAt data' i)

/-- The new value of an address. -/
def Sieved (hist : List Event) (block ip ip' : Nat) : Prop :=
  (Keeps hist block ip → ip' = ip) ∧ (¬ Keeps hist block ip → ip' = 0)

section Filter

variable {hist : List Event} {n : CtrlNode} {b : SendBlock}

/-- The addresses that the maps leave are those that the events leave. -/
theorem sieve_sieved (h : History hist n) (hk : Known hist b.blockNum) :
    List.Forall₂ (Sieved hist b.blockNum) b.ip (sieve n b).ip := by
  obtain ⟨users, hu, -⟩ := (located_iff h b.blockNum).mpr hk
  have hreported := reported_iff h b.blockNum
  have hkeeps : ∀ ip, (∃ user ∈ (n.blockmap.lookup b.blockNum).getD ∅,
      n.ipmap.lookup user = some (long2ip ip)) ↔ Keeps hist b.blockNum ip := by
    intro ip
    unfold Keeps
    constructor
    · intro hex
      obtain ⟨user, huser, hip⟩ := hex
      exact ⟨user, (hreported user).mp huser, (address_eq h user).symm.trans hip⟩
    · intro hex
      obtain ⟨user, huser, hip⟩ := hex
      exact ⟨user, (hreported user).mpr huser, (address_eq h user).trans hip⟩
  refine List.forall₂_map_right_iff.mpr (List.forall₂_same.mpr fun ip _ => ?_)
  unfold Sieved
  rw [← hkeeps ip]
  exact ⟨fun hp => if_pos hp, fun hp => if_neg hp⟩

/-- A record packed again with sieved addresses is filtered. -/
theorem pack_filtered {d : Str} {ips : List Nat} (hd : d.length = 32)
    (hips : List.Forall₂ (Sieved hist (unpack d).1.blockNum) (unpack d).1.ip ips) :
    Filtered hist d (pack { (unpack d).1 with ip := ips } (unpack d).2) := by
  have hfield : ∀ off k, off + k ≤ 32 → toLE k (ofLE (slice d off k)) = slice d off k := by
    intro off k hle
    have hround := toLE_ofLE (slice d off k)
    rwa [length_slice (by omega)] at hround
  have hlen : ips.length = 3 := hips.length_eq.symm
  have hpieces : ∀ p ∈ ips.map (toLE 4), p.length = 4 := by
    intro p hp
    obtain ⟨v, -, rfl⟩ := List.mem_map.mp hp
    exact length_toLE 4 v
  have haddr : (ips.map (toLE 4)).flatten.length = 12 := by
    rw [length_flatten hpieces, List.length_map, hlen]
  have hpack : pack { (unpack d).1 with ip := ips } (unpack d).2
      = slice d 0 16 ++ ((ips.map (toLE 4)).flatten ++ slice d 28 4) := by
    show toLE 8 (ofLE (slice d 0 8)) ++ (toLE 4 (ofLE (slice d 8 4)) ++
      (toLE 4 (ofLE (slice d 12 4)) ++ ((ips.map (toLE 4)).flatten ++ slice d 28 4))) = _
    rw [hfield 0 8 (by omega), hfield 8 4 (by omega), hfield 12 4 (by omega),
      slice_add d 0 8 8, slice_add d 8 4 4, List.append_assoc, List.append_assoc]
  have hfront : (slice d 0 16).length = 16 := length_slice (by omega)
  have hback : (slice d 28 4).length = 4 := length_slice (by omega)
  -- the address fields of the new record
  have hip : ∀ j < 3, ∀ v, ips[j]? = some v →
      slice (pack { (unpack d).1 with ip := ips } (unpack d).2) (16 + 4 * j) 4 = toLE 4 v := by
    intro j hj v hv
    rw [hpack, slice_append_right (by omega), hfront, Nat.add_sub_cancel_left,
      slice_append_left (by omega)]
    exact slice_flatten hpieces (by rw [List.getElem?_map, hv]; rfl)
  have hold : ∀ j < 3, ∃ v, ips[j]? = some v ∧
      Sieved hist (unpack d).1.blockNum (ofLE (slice d (16 + 4 * j) 4)) v := by
    intro j hj
    have hfold : (unpack d).1.ip[j]? = some (ofLE (slice d (16 + 4 * j) 4)) := by
      match j, hj with
      | 0, _ => rfl
      | 1, _ => rfl
      | 2, _ => rfl
    have hlt : j < ips.length := by omega
    refine ⟨ips[j], List.getElem?_eq_getElem hlt, ?_⟩
    obtain ⟨hlt', hvalue⟩ := List.getElem?_eq_some_iff.mp hfold
    rw [← hvalue]
    exact hips.get hlt' hlt
  refine ⟨?_, ?_, ?_, fun j hj hk => ?_, fun j hj hk => ?_⟩
  · rw [hpack, List.length_append, List.length_append, hfront, haddr, hback]
  · rw [hpack]
    have hself := slice_append_self (slice d 0 16) ((ips.map (toLE 4)).flatten ++ slice d 28 4)
    rwa [hfront] at hself
  · rw [hpack, slice_append_right (by omega), slice_append_right (by omega), hfront, haddr]
    have hself := slice_append_self (slice d 28 4) []
    rwa [hback, List.append_nil] at hself
  · obtain ⟨v, hv, hsieved⟩ := hold j hj
    rw [hip j hj v hv, hsieved.1 hk]
    exact hfield _ _ (by omega)
  · obtain ⟨v, hv, hsieved⟩ := hold j hj
    rw [hip j hj v hv, hsieved.2 hk, toLE_zero]

/-- The records on their own are those of `flitRead`. -/
theorem flitLoop_flitRead (data : Str) (is : List Nat) (n : CtrlNode) :
    flitLoop data is n = (flitRead (is.map fun i => (unpack (recordAt data i)).1) >>= fun bs =>
      return (List.zipWith pack bs (is.map fun i => (unpack (recordAt data i)).2)).flatten) n := by
  induction is with
  | nil => rfl
  | cons i is ih =>
    show (flitBlock (unpack (recordAt data i)).1 >>= fun b => flitLoop data is >>= fun ret =>
        pure (pack b (unpack (recordAt data i)).2 ++ ret)) n
      = ((flitBlock (unpack (recordAt data i)).1 >>= fun b =>
          flitRead (is.map fun i => (unpack (recordAt data i)).1) >>= fun bs =>
            pure (b :: bs)) >>= _) n
    by_cases hloc : Located n (unpack (recordAt data i)).1.blockNum
    · have hblock := flitBlock_located hloc
      rw [bind_step hblock, bind_assoc, bind_step hblock]
      by_cases hall : ∀ b ∈ is.map (fun i => (unpack (recordAt data i)).1), Located n b.blockNum
      · have hread := flitRead_located hall
        rw [bind_step hread] at ih
        rw [bind_step ih, bind_step (bind_step hread _)]
        rfl
      · simp only [not_forall] at hall
        obtain ⟨b, hb, hnot⟩ := hall
        have hread := flitRead_missing ⟨b, hb, hnot⟩
        rw [bind_raise hread] at ih
        rw [bind_raise ih, bind_raise (bind_raise hread _)]
    · have hblock := flitBlock_missing hloc
      rw [bind_raise hblock, bind_raise (bind_raise hblock _)]

theorem flitLoop_known (h : History hist n) (data : Str) {is : List Nat}
    (hin : ∀ i ∈ is, 32 * i + 32 ≤ data.length)
    (hk : ∀ i ∈ is, Known hist (unpack (recordAt data i)).1.blockNum) :
    ∃ pieces, flitLoop data is n = .ok (.ok pieces.flatten, n) ∧
      List.Forall₂ (fun i d' => Filtered hist (recordAt data i) d') is pieces := by
  have hread : flitRead (is.map fun i => (unpack (recordAt data i)).1) n = _ :=
    flitRead_located fun b hb => by
      obtain ⟨i, hi, rfl⟩ := List.mem_map.mp hb
      exact (located_iff h _).mpr (hk i hi)
  refine ⟨is.map fun i =>
    pack (sieve n (unpack (recordAt data i)).1) (unpack (recordAt data i)).2, ?_, ?_⟩
  · rw [flitLoop_flitRead, bind_step hread, List.map_map, List.zipWith_map, List.zipWith_self]
    rfl
  · refine List.forall₂_map_right_iff.mpr (List.forall₂_same.mpr fun i hi => ?_)
    exact pack_filtered (length_slice (hin i hi)) (sieve_sieved h (hk i hi))

theorem flitLoop_unknown (h : History hist n) (data : Str) {is : List Nat} {i : Nat} (hi : i ∈ is)
    (hk : ¬ Known hist (unpack (recordAt data i)).1.blockNum) :
    flitLoop data is n = .ok (.error .keyError, n) := by
  rw [flitLoop_flitRead]
  refine bind_raise (flitRead_missing ⟨_, List.mem_map_of_mem hi, fun hloc => hk ?_⟩) _
  exact (located_iff h _).mp hloc

/-- `__flit_read` filters a string of records just when all its blocks are known, and raises a
KeyError elsewhere. -/
theorem flitsExactly_iff (h : History hist n) {data : Str} (hdata : data.length % 32 = 0) :
    FlitsExactly hist data n ↔
      ∀ i < data.length / 32, Known hist (unpack (recordAt data i)).1.blockNum := by
  have hin : ∀ i ∈ List.range (data.length / 32), 32 * i + 32 ≤ data.length := by
    intro i hi
    have hlt := List.mem_range.mp hi
    omega
  constructor
  · intro hexact i hi
    obtain ⟨data', hrun, -, -⟩ := hexact
    by_contra hk
    have hraise := flitLoop_unknown h data (List.mem_range.mpr hi) hk
    cases hraise.symm.trans hrun
  · intro hk
    obtain ⟨pieces, hrun, hpieces⟩ :=
      flitLoop_known h data hin fun i hi => hk i (List.mem_range.mp hi)
    have hcount : pieces.length = data.length / 32 := by
      rw [← hpieces.length_eq, List.length_range]
    have hget : ∀ i < data.length / 32, ∃ d', pieces[i]? = some d' ∧
        Filtered hist (recordAt data i) d' := by
      intro i hi
      have hlt : i < pieces.length := by omega
      have hpair := hpieces.get (by rw [List.length_range]; exact hi) hlt
      rw [List.get_eq_getElem, List.getElem_range] at hpair
      exact ⟨pieces[i], List.getElem?_eq_getElem hlt, hpair⟩
    have hwidth : ∀ p ∈ pieces, p.length = 32 := by
      intro p hp
      obtain ⟨i, hlt, rfl⟩ := List.getElem_of_mem hp
      obtain ⟨d', hd', hfiltered⟩ := hget i (by omega)
      rw [List.getElem?_eq_getElem hlt] at hd'
      cases hd'
      exact hfiltered.length
    refine ⟨pieces.flatten, hrun, ?_, fun i hi => ?_⟩
    · rw [length_flatten hwidth, hcount]
      omega
    · obtain ⟨d', hd', hfiltered⟩ := hget i hi
      have hpiece : recordAt pieces.flatten i = d' := slice_flatten hwidth hd'
      rw [hpiece]
      exact hfiltered

end Filter

/-! ## The joined addresses -/

section Addresses

variable {hist : List Event} {n : CtrlNode}

theorem erase_absent {m : Map Str Str} {user : Str} (h : user ∉ m) :
    (m.erase user).keys = m.keys ∧ ∀ key, (m.erase user).lookup key = m.lookup key := by
  constructor
  · rw [AList.keys_erase]
    exact @List.erase_of_not_mem _ instBEqOfDecidableEq inferInstance _ _
      fun hm => h (AList.mem_keys.mpr hm)
  · intro key
    by_cases hk : key = user
    · subst hk
      rw [AList.lookup_erase, AList.lookup_eq_none.mpr h]
    · exact AList.lookup_erase_ne hk

theorem erase_present {m : Map Str Str} {user : Str} (h : user ∈ m) :
    (m.erase user).keys.length < m.keys.length := by
  have hm : user ∈ m.keys := AList.mem_keys.mp h
  have hpos := List.length_pos_of_mem hm
  rw [AList.keys_erase, @List.length_erase_of_mem _ instBEqOfDecidableEq inferInstance _ _ hm]
  omega

/-- Unless a registered user has been dropped after the last report, `ips` is up to date. -/
theorem ips_exact (h : History hist n) (hs : ¬ Stale hist) : IpsExact n := by
  induction h with
  | start blockmap ipmap ips =>
    refine ⟨[], ?_, ips⟩
    rw [ipmap]
    exact List.Perm.refl _
  | @call hist n n' e before allowed run ih =>
    cases e with
    | report order l user ip =>
      cases run
      exact ⟨order, allowed, rfl⟩
    | drop user =>
      cases run
      obtain ⟨hold, hnone⟩ := not_or.mp hs
      obtain ⟨order, hperm, hips⟩ := ih hold
      have habsent : user ∉ n.ipmap := by
        rw [← AList.lookup_isSome, address_eq before]
        exact hnone
      obtain ⟨hkeys, hlook⟩ := erase_absent habsent
      refine ⟨order, ?_, ?_⟩
      · show order.Perm (n.ipmap.erase user).keys
        rw [hkeys]
        exact hperm
      · show n.ips = List.intercalate [0x2c] (order.filterMap fun key =>
          (n.ipmap.erase user).lookup key)
        simp only [hlook]
        exact hips

/-- An address as `accept` gives it: not empty, and without a comma. -/
def Plain (ip : Str) : Prop := ip ≠ [] ∧ (0x2c : UInt8) ∉ ip

/-- Addresses that are joined can be told from the string. -/
theorem join_inj {vs ws : List Str} (hv : ∀ v ∈ vs, Plain v) (hw : ∀ w ∈ ws, Plain w)
    (h : List.intercalate [0x2c] vs = List.intercalate [0x2c] ws) : vs = ws := by
  have hsplit : ∀ {l : List Str}, (∀ v ∈ l, Plain v) → l ≠ [] →
      (List.intercalate [0x2c] l).splitOn 0x2c = l :=
    fun hl hne => List.splitOn_intercalate _ (fun v hv => (hl v hv).2) hne
  have hnil : ∀ {l : List Str}, (∀ v ∈ l, Plain v) → List.intercalate [0x2c] l = [] → l = [] := by
    intro l hl hempty
    by_contra hne
    have hl' := hsplit hl hne
    rw [hempty, List.splitOn_nil] at hl'
    exact (hl [] (hl' ▸ List.mem_singleton_self _)).1 rfl
  by_cases hvs : vs = []
  · subst hvs
    exact (hnil hw h.symm).symm
  · by_cases hws : ws = []
    · subst hws
      exact hnil hv h
    · rw [← hsplit hv hvs, h, hsplit hw hws]

/-- All addresses in the calls are plain. -/
def PlainAddresses (hist : List Event) : Prop :=
  ∀ order l user ip, .report order l user ip ∈ hist → Plain ip

theorem plain_lookup (h : History hist n) (hp : PlainAddresses hist) {user ip : Str}
    (hu : n.ipmap.lookup user = some ip) : Plain ip := by
  rw [address_eq h] at hu
  clear h
  induction hist with
  | nil => cases hu
  | cons e hist ih =>
    have hrest : PlainAddresses hist :=
      fun order l user ip hm => hp order l user ip (List.mem_cons_of_mem _ hm)
    cases e with
    | report order l v ip' =>
      rw [address] at hu
      by_cases huv : user = v
      · rw [if_pos huv] at hu
        cases hu
        exact hp order l v ip (List.mem_cons_self ..)
      · rw [if_neg huv] at hu
        exact ih hrest hu
    | drop v =>
      rw [address] at hu
      by_cases huv : user = v
      · rw [if_pos huv] at hu
        cases hu
      · rw [if_neg huv] at hu
        exact ih hrest hu

/-- `ips` has an address for each registered user, and more when it is stale. -/
theorem ips_addresses (h : History hist n) (hp : PlainAddresses hist) :
    ∃ vs : List Str, n.ips = List.intercalate [0x2c] vs ∧ (∀ v ∈ vs, Plain v) ∧
      n.ipmap.keys.length ≤ vs.length ∧ (Stale hist → n.ipmap.keys.length < vs.length) := by
  induction h with
  | start blockmap ipmap ips =>
    refine ⟨[], ips, fun v hv => (List.not_mem_nil hv).elim, ?_, fun hs => hs.elim⟩
    rw [ipmap]
    exact Nat.le_refl _
  | @call hist n n' e before allowed run ih =>
    have hafter : History (e :: hist) n' := .call before allowed run
    cases e with
    | report order l user ip =>
      cases run
      refine ⟨_, rfl, fun v hv => ?_, ?_, fun hs => hs.elim⟩
      · obtain ⟨key, -, hkey⟩ := List.mem_filterMap.mp hv
        exact plain_lookup hafter hp hkey
      · have hall : ∀ key ∈ order, ((n.ipmap.insert user ip).lookup key).isSome := by
          intro key hkey
          rw [AList.lookup_isSome]
          exact AList.mem_keys.mpr (allowed.mem_iff.mp hkey)
        have hcount : (order.filterMap fun key => (n.ipmap.insert user ip).lookup key).length
            = order.length := List.filterMap_length_eq_length.mpr hall
        exact Nat.le_of_eq (allowed.length_eq.symm.trans hcount.symm)
    | drop user =>
      cases run
      obtain ⟨vs, hips, hplain, hle, hlt⟩ :=
        ih fun order l u ip hm => hp order l u ip (List.mem_cons_of_mem _ hm)
      refine ⟨vs, hips, hplain, ?_⟩
      show (n.ipmap.erase user).keys.length ≤ vs.length ∧
        (_ → (n.ipmap.erase user).keys.length < vs.length)
      by_cases hu : user ∈ n.ipmap
      · have herase := erase_present hu
        exact ⟨by omega, fun _ => by omega⟩
      · rw [(erase_absent hu).1]
        refine ⟨hle, fun hs => hs.elim hlt fun hsome => ?_⟩
        rw [← address_eq before, AList.lookup_isSome] at hsome
        exact absurd hsome hu

/-- Of plain addresses `ips` is up to date only then. -/
theorem ips_stale (h : History hist n) (hp : PlainAddresses hist) (hs : Stale hist) :
    ¬ IpsExact n := by
  intro hexact
  obtain ⟨vs, hips, hplain, -, hlt⟩ := ips_addresses h hp
  obtain ⟨order, hperm, hjoin⟩ := hexact
  have hnow : ∀ v ∈ order.filterMap fun key => n.ipmap.lookup key, Plain v := by
    intro v hv
    obtain ⟨key, -, hkey⟩ := List.mem_filterMap.mp hv
    exact plain_lookup h hp hkey
  have heq := join_inj hplain hnow (hips.symm.trans hjoin)
  have hle : vs.length ≤ n.ipmap.keys.length := by
    rw [heq, ← hperm.length_eq]
    exact List.length_filterMap_le _ _
  have hmore := hlt hs
  omega

end Addresses

/-- After any sequence of calls `__flit_read` filters a string of records exactly when each of its
blocks has been reported and each user who has reported it is registered; and `ips` is up to date
when no registered user has been dropped after the last report, and of plain addresses only
then. -/
theorem replicas_iff {hist : List Event} {n : CtrlNode} (h : History hist n) :
    (∀ data : Str, data.length % 32 = 0 → (FlitsExactly hist data n ↔
      ∀ i < data.length / 32, Known hist (unpack (recordAt data i)).1.blockNum)) ∧
    (¬ Stale hist → IpsExact n) ∧ (PlainAddresses hist → IpsExact n → ¬ Stale hist) :=
  ⟨fun _ hdata => flitsExactly_iff h hdata, ips_exact h,
    fun hp hexact hs => ips_stale h hp hs hexact⟩

/-! ## A report of one data node -/

def nodeD : Str := ascii "d"
def addrD : Str := ascii "1.2.3.4"

/-- The control node before any call. -/
def started : CtrlNode := ⟨⟨Cfs.Mkfs.blank, 0, Cfs.Invariants.calm⟩, ∅, ∅, [], ∅, []⟩

/-- The node `d` has reported block 5. -/
def reportOfD : Event := .report [nodeD] [5] nodeD addrD

theorem history_report : ∃ n, History [reportOfD] n ∧ n.ipmap.keys = [nodeD] ∧ n.ips = addrD := by
  obtain ⟨n, hrun, hipmap, hips, -⟩ := report_run [nodeD] [5] nodeD addrD started
  have hallowed : reportOfD.Allowed started := List.Perm.refl [nodeD]
  refine ⟨n, .call (.start rfl rfl rfl) hallowed hrun, ?_, ?_⟩
  · rw [hipmap]
    rfl
  · rw [hips, hipmap]
    rfl

/-- A record of block 5 at the addresses 1.2.3.4 and 5.6.7.8. -/
def recordOfD : Str := pack ⟨5, 0, 10, [0x01020304, 0x05060708, 0]⟩ [1, 2, 3, 4]

theorem replicas_report :
    ∃ n, History [reportOfD] n ∧ FlitsExactly [reportOfD] recordOfD n ∧ IpsExact n := by
  obtain ⟨n, hist, -⟩ := history_report
  obtain ⟨hflit, hips, -⟩ := replicas_iff hist
  refine ⟨n, hist, (hflit recordOfD (by decide)).mpr fun i hi => ?_, hips id⟩
  have hzero : i = 0 := by
    have hlen : recordOfD.length / 32 = 1 := by decide
    omega
  subst hzero
  rw [show (unpack (recordAt recordOfD 0)).1.blockNum = 5 by decide]
  refine ⟨⟨nodeD, [nodeD], [5], addrD, List.mem_singleton_self _, List.mem_singleton_self _⟩, ?_⟩
  intro user hr
  obtain ⟨order, l, ip, hm, -⟩ := hr
  cases List.mem_singleton.mp hm
  rfl

/-- Once the node is dropped, reading the block raises a KeyError, and `ips` keeps the address. -/
theorem replicas_dropped : ∃ n, History [.drop nodeD, reportOfD] n ∧
    flitData recordOfD n = .ok (.error .keyError, n) ∧ n.ipmap.keys = [] ∧ n.ips = addrD ∧
    ¬ IpsExact n := by
  obtain ⟨n, hist, hkeys, hips⟩ := history_report
  have hist' : History [.drop nodeD, reportOfD] { n with ipmap := n.ipmap.erase nodeD } :=
    .call hist trivial rfl
  have hnone : address [.drop nodeD, reportOfD] nodeD = none := by decide
  have hsome : (address [reportOfD] nodeD).isSome := by decide
  refine ⟨_, hist', ?_, ?_, hips, ?_⟩
  · refine flitLoop_unknown hist' recordOfD (i := 0) (by decide) fun hk => ?_
    rw [show (unpack (recordAt recordOfD 0)).1.blockNum = 5 by decide] at hk
    have hreg := hk.2 nodeD ⟨[nodeD], [5], addrD,
      List.mem_cons_of_mem _ (List.mem_singleton_self _),
      List.mem_singleton_self _⟩
    rw [hnone] at hreg
    cases hreg
  · show (n.ipmap.erase nodeD).keys = []
    rw [AList.keys_erase, hkeys]
    decide
  · refine ips_stale hist' (fun order l user ip hm => ?_) (.inr hsome)
    have hip : ip = addrD := by
      rcases List.mem_cons.mp hm with he | hm
      · cases he
      · cases List.mem_singleton.mp hm
        rfl
    rw [hip]
    exact ⟨by decide, by decide⟩

end Sbpfs.Cnode.Replicas
