import Sbpfs.Libc.TransferSpec

/-!
# What the transfer loops report

`write_blocks` and `read_blocks` against what was heard from the data nodes. A write counts the
requests that succeeded and the requests made, and compares the counts; where no node is named both
are 0.
-/
namespace Sbpfs.Libc.TransferLaws

open Sbpfs.Lib.Program Sbpfs.Lib.Pack
open Sbpfs.Cfs.Layout (s32 u64OfInt)
open Sbpfs.Wire.Head Sbpfs.Wire.Number Sbpfs.Libc.Request Sbpfs.Libc.Recv Sbpfs.Libc.Table
open Sbpfs.Libc.Transfer Sbpfs.Libc.TransferSpec

variable {σ : Type}

/-! ## What was heard -/

section Heard

variable (net : Link σ) (l : Login) (authCode : Str)

/-- A request about a block to its node `j`, and the answer that is heard. -/
def askNode (method : String) (contentLen data : Str) (ent : BlockEntry)
    (j : Fin (REDUNDANCY + 1)) : Prog σ (Option Answer) := do
  let entrys ← check (blockEntrys l authCode method ent contentLen)
  if ← net.connect (ent.dNodes j) then net.transfer (ent.dNodes j) entrys data
  else return none

/-- The entry names a data node. -/
def HasNode (ent : BlockEntry) : Prop := ∃ j, ent.dNodes j ≠ 0

/-- The node has acknowledged the bytes of the block. No answer is waited for where there are no
bytes to send. -/
def Confirms (ent : BlockEntry) (a : Option Answer) : Prop :=
  ent.lengthInBlock.toNat ≠ 0 ∧ ∃ answer, a = some answer ∧ answer.saysOk = true

/-- Every node that is named was sent the bytes of `buf` from `ptr` on, and has acknowledged
them. -/
inductive Confirmed (buf : Str) (ent : BlockEntry) (ptr : Nat) :
    List (Fin (REDUNDANCY + 1)) → σ → σ → Prop
  | nil {s : σ} : Confirmed buf ent ptr [] s s
  | skip {j : Fin (REDUNDANCY + 1)} {js : List (Fin (REDUNDANCY + 1))} {s s' : σ}
      (zero : ent.dNodes j = 0) (rest : Confirmed buf ent ptr js s s') :
      Confirmed buf ent ptr (j :: js) s s'
  | ask {j : Fin (REDUNDANCY + 1)} {js : List (Fin (REDUNDANCY + 1))} {a : Option Answer}
      {s s₁ s' : σ} (node : ent.dNodes j ≠ 0)
      (bytes : (slice buf ptr ent.lengthInBlock.toNat).length = ent.lengthInBlock.toNat)
      (heard : askNode net l authCode "WRITE" (decimal 0 (s32 ent.lengthInBlock.toNat))
        (slice buf ptr ent.lengthInBlock.toNat) ent j s = .ok (a, s₁))
      (confirms : Confirms ent a) (rest : Confirmed buf ent ptr js s₁ s') :
      Confirmed buf ent ptr (j :: js) s s'

/-- Every block has a node, and all its nodes have acknowledged its bytes. -/
inductive AllConfirmed (buf : Str) : List BlockEntry → Nat → σ → σ → Prop
  | nil {ptr : Nat} {s : σ} : AllConfirmed buf [] ptr s s
  | cons {ent : BlockEntry} {es : List BlockEntry} {ptr : Nat} {s s₁ s' : σ} (node : HasNode ent)
      (block : Confirmed net l authCode buf ent ptr (List.finRange (REDUNDANCY + 1)) s s₁)
      (rest : AllConfirmed buf es (ptr + ent.lengthInBlock.toNat) s₁ s') :
      AllConfirmed buf (ent :: es) ptr s s'

/-- The answer has the bytes of the block: it says OK and announces as many as the block has. An
answer of an unknown kind will do for a block of no bytes. -/
inductive Delivers (ent : BlockEntry) : Option Answer → Str → Prop
  | ok {a : Answer} {value : Str} (title : a.saysOk = true)
      (announced : valueOf a.entrys CONTENT_LEN = some value)
      (length : u64OfInt (atoll value) = ent.lengthInBlock.toNat)
      (enough : ent.lengthInBlock.toNat ≤ a.data.length) :
      Delivers ent (some a) (a.data.take ent.lengthInBlock.toNat)
  | empty {a : Answer} (notOk : a.saysOk = false) (notErr : a.saysErr = false)
      (length : ent.lengthInBlock.toNat = 0) : Delivers ent (some a) []

/-- One named node after another is asked for the block, until one delivers it. -/
inductive Fetched (ent : BlockEntry) : List (Fin (REDUNDANCY + 1)) → Option Str → σ → σ → Prop
  | nil {s : σ} : Fetched ent [] none s s
  | skip {j : Fin (REDUNDANCY + 1)} {js : List (Fin (REDUNDANCY + 1))} {o : Option Str} {s s' : σ}
      (zero : ent.dNodes j = 0) (rest : Fetched ent js o s s') : Fetched ent (j :: js) o s s'
  | miss {j : Fin (REDUNDANCY + 1)} {js : List (Fin (REDUNDANCY + 1))} {a : Option Answer}
      {o : Option Str} {s s₁ s' : σ} (node : ent.dNodes j ≠ 0)
      (heard : askNode net l authCode "READ" (ascii "0") [] ent j s = .ok (a, s₁))
      (fails : ∀ data, ¬ Delivers ent a data) (rest : Fetched ent js o s₁ s') :
      Fetched ent (j :: js) o s s'
  | hit {j : Fin (REDUNDANCY + 1)} {js : List (Fin (REDUNDANCY + 1))} {a : Option Answer}
      {data : Str} {s s' : σ} (node : ent.dNodes j ≠ 0)
      (heard : askNode net l authCode "READ" (ascii "0") [] ent j s = .ok (a, s'))
      (delivers : Delivers ent a data) : Fetched ent (j :: js) (some data) s s'

/-- Every block was delivered by one of its nodes. -/
inductive AllFetched : List BlockEntry → List Str → σ → σ → Prop
  | nil {s : σ} : AllFetched [] [] s s
  | cons {ent : BlockEntry} {es : List BlockEntry} {data : Str} {datas : List Str} {s s₁ s' : σ}
      (block : Fetched net l authCode ent (List.finRange (REDUNDANCY + 1)) (some data) s s₁)
      (rest : AllFetched es datas s₁ s') : AllFetched (ent :: es) (data :: datas) s s'

end Heard

/-- For every behaviour of the other parties: `write_blocks` returns the length of the blocks just
when all of them were acknowledged by all of their nodes, of which there is at least one, and -1
otherwise; `read_blocks` returns it just when all of them were delivered, which then stand in the
buffer one behind the other, and -1 otherwise. -/
def Truthful (es : List BlockEntry) : Prop :=
  ∀ (σ : Type) (net : Link σ) (l : Login) (authCode buf : Str) (s s' : σ),
    (∀ r, writeBlocks (writeBlock net l authCode buf) es 0 s = .ok (r, s') →
      r = (lengths es : Int) ∧ AllConfirmed net l authCode buf es 0 s s' ∨
        r = -1 ∧ ¬ AllConfirmed net l authCode buf es 0 s s') ∧
    ∀ r buf', readBlocks (readBlock net l authCode) es 0 buf s = .ok ((r, buf'), s') →
      (∃ datas, AllFetched net l authCode es datas s s' ∧ r = (lengths es : Int) ∧
        datas.flatten.length = lengths es ∧ buf' = overwrite buf 0 datas.flatten) ∨
        r = -1 ∧ ∀ datas, ¬ AllFetched net l authCode es datas s s'

/-! ## One request -/

section Requests

variable {net : Link σ} {l : Login} {authCode buf buf' : Str} {ent : BlockEntry}
  {j : Fin (REDUNDANCY + 1)} {ptr : Nat} {s s' : σ} {r : Int}

/-- What `write_block` returns is made of the answer. -/
theorem writeBlock_run :
    writeBlock net l authCode buf ent j ptr s = .ok (r, s') → ∃ a,
      askNode net l authCode "WRITE" (decimal 0 (s32 ent.lengthInBlock.toNat))
        (slice buf ptr ent.lengthInBlock.toNat) ent j s = .ok (a, s') ∧
      ((slice buf ptr ent.lengthInBlock.toNat).length = ent.lengthInBlock.toNat ∨ a = none) ∧
      r = if ent.lengthInBlock.toNat = 0 then -1 else writeReply ent a := by
  intro h
  obtain ⟨entrys, s₁, hcheck, h₁⟩ := bind_ok.mp h
  obtain ⟨ok, s₂, hconnect, h₂⟩ := bind_ok.mp h₁
  have hask : ∀ data, askNode net l authCode "WRITE" (decimal 0 (s32 ent.lengthInBlock.toNat))
      data ent j s = (if ok then net.transfer (ent.dNodes j) entrys data else return none) s₂ :=
    fun data => (bind_run hcheck _).trans (bind_run hconnect _)
  cases ok with
  | false =>
    obtain ⟨rfl, rfl⟩ := pure_ok.mp h₂
    have hr : (if ent.lengthInBlock.toNat = 0 then -1 else writeReply ent none) = -1 := by
      split <;> rfl
    exact ⟨none, hask _, .inr rfl, hr.symm⟩
  | true =>
    rw [if_pos rfl] at h₂
    split at h₂
    swap
    · cases h₂
    rename_i hlen
    obtain ⟨a, s₃, htransfer, hret⟩ := bind_ok.mp h₂
    obtain ⟨rfl, rfl⟩ := pure_ok.mp hret
    exact ⟨a, (hask _).trans htransfer, .inl hlen, rfl⟩

/-- The converse for a request whose bytes are there. -/
theorem writeBlock_asked {a : Answer}
    (hlen : (slice buf ptr ent.lengthInBlock.toNat).length = ent.lengthInBlock.toNat)
    (h : askNode net l authCode "WRITE" (decimal 0 (s32 ent.lengthInBlock.toNat))
      (slice buf ptr ent.lengthInBlock.toNat) ent j s = .ok (some a, s')) :
    writeBlock net l authCode buf ent j ptr s
      = .ok (if ent.lengthInBlock.toNat = 0 then -1 else writeReply ent (some a), s') := by
  obtain ⟨entrys, s₁, hcheck, h₁⟩ := bind_ok.mp h
  obtain ⟨ok, s₂, hconnect, h₂⟩ := bind_ok.mp h₁
  unfold writeBlock
  dsimp only
  rw [bind_run hcheck, bind_run hconnect]
  cases ok with
  | false => cases h₂
  | true =>
    rw [if_pos rfl] at h₂ ⊢
    rw [if_pos hlen, bind_run h₂]
    rfl

/-- The value counts as a success just when the node has acknowledged. -/
theorem acked_iff {a : Option Answer} :
    Acked ent (j, if ent.lengthInBlock.toNat = 0 then -1 else writeReply ent a) ↔
      Confirms ent a := by
  show (if ent.lengthInBlock.toNat = 0 then -1 else writeReply ent a) ≥
    (ent.lengthInBlock.toNat : Int) ↔ _
  by_cases hzero : ent.lengthInBlock.toNat = 0
  · rw [if_pos hzero, hzero]
    constructor
    · intro h
      exact absurd h (by decide)
    · intro h
      exact absurd hzero h.1
  · rw [if_neg hzero]
    cases a with
    | none =>
      constructor
      · intro h
        have hneg : (-1 : Int) ≥ ent.lengthInBlock.toNat := h
        omega
      · intro h
        obtain ⟨-, answer, hnone, -⟩ := h
        cases hnone
    | some answer =>
      show (if answer.saysOk = true then (ent.lengthInBlock.toNat : Int)
        else if answer.saysErr = true then -1 else 0) ≥ ent.lengthInBlock.toNat ↔ _
      by_cases hok : answer.saysOk = true
      · rw [if_pos hok]
        exact ⟨fun _ => ⟨hzero, answer, rfl, hok⟩, fun _ => Int.le_refl _⟩
      · rw [if_neg hok]
        have hsmall : (if answer.saysErr = true then (-1 : Int) else 0) ≤ 0 := by
          split <;> decide
        constructor
        · intro h
          omega
        · intro h
          obtain ⟨-, answer', heq, htrue⟩ := h
          cases heq
          exact absurd htrue hok

end Requests

/-! ## Writing -/

section Writing

variable {net : Link σ} {l : Login} {authCode buf : Str} {ent : BlockEntry} {es : List BlockEntry}
  {ptr : Nat} {s s' : σ}

/-- Requests that all succeeded were all acknowledged. -/
theorem Confirmed.of_rounds {js : List (Fin (REDUNDANCY + 1))}
    {rs : List (Fin (REDUNDANCY + 1) × Int)}
    (h : Rounds (fun j => writeBlock net l authCode buf ent j ptr) ent js rs s s')
    (hacked : ∀ q ∈ rs, Acked ent q) : Confirmed net l authCode buf ent ptr js s s' := by
  induction h with
  | nil => exact .nil
  | skip zero rest ih => exact .skip zero (ih hacked)
  | ask node run rest ih =>
    obtain ⟨a, hask, hbytes, hr⟩ := writeBlock_run run
    have hconfirms : Confirms ent a := acked_iff.mp (hr ▸ hacked _ (List.mem_cons_self ..))
    have hlen : (slice buf ptr ent.lengthInBlock.toNat).length = ent.lengthInBlock.toNat := by
      rcases hbytes with hlen | hnone
      · exact hlen
      · obtain ⟨-, answer, hsome, -⟩ := hconfirms
        cases hsome.symm.trans hnone
    exact .ask node hlen hask hconfirms (ih fun q hq => hacked q (List.mem_cons_of_mem _ hq))

theorem Confirmed.rounds {js : List (Fin (REDUNDANCY + 1))}
    (h : Confirmed net l authCode buf ent ptr js s s') :
    ∃ rs, Rounds (fun j => writeBlock net l authCode buf ent j ptr) ent js rs s s' ∧
      ∀ q ∈ rs, Acked ent q := by
  induction h with
  | nil => exact ⟨[], .nil, fun q hq => (List.not_mem_nil hq).elim⟩
  | skip zero rest ih =>
    obtain ⟨rs, hrounds, hacked⟩ := ih
    exact ⟨rs, .skip zero hrounds, hacked⟩
  | @ask j js a s s₁ s' node bytes heard confirms rest ih =>
    obtain ⟨rs, hrounds, hacked⟩ := ih
    obtain ⟨answer, rfl⟩ : ∃ answer, a = some answer := by
      obtain ⟨-, answer, heq, -⟩ := confirms
      exact ⟨answer, heq⟩
    refine ⟨_ :: rs, .ask node (writeBlock_asked bytes heard) hrounds, fun q hq => ?_⟩
    rcases List.mem_cons.mp hq with rfl | hq
    · exact acked_iff.mpr confirms
    · exact hacked q hq

/-- Where every block has a node, all were acknowledged when `write_blocks` got through. -/
theorem AllConfirmed.of_written (h : Written (writeBlock net l authCode buf) es ptr s s')
    (hnode : ∀ e ∈ es, HasNode e) : AllConfirmed net l authCode buf es ptr s s' := by
  induction h with
  | nil => exact .nil
  | cons asks acked rest ih =>
    exact .cons (hnode _ (List.mem_cons_self ..)) (Confirmed.of_rounds asks acked)
      (ih fun e he => hnode e (List.mem_cons_of_mem _ he))

theorem AllConfirmed.written (h : AllConfirmed net l authCode buf es ptr s s') :
    Written (writeBlock net l authCode buf) es ptr s s' ∧ ∀ e ∈ es, HasNode e := by
  induction h with
  | nil => exact ⟨.nil, fun e he => (List.not_mem_nil he).elim⟩
  | cons node block rest ih =>
    obtain ⟨rs, hrounds, hacked⟩ := block.rounds
    refine ⟨.cons hrounds hacked ih.1, fun e he => ?_⟩
    rcases List.mem_cons.mp he with rfl | he
    · exact node
    · exact ih.2 e he

end Writing

/-! ## Reading -/

section Reading

variable {net : Link σ} {l : Login} {authCode buf buf' : Str} {ent : BlockEntry}
  {es : List BlockEntry} {j : Fin (REDUNDANCY + 1)} {ptr : Nat} {s s' : σ} {r : Int}

theorem overwrite_nil (b : Str) (p : Nat) : overwrite b p [] = b := by
  show b.take p ++ [] ++ b.drop (p + 0) = b
  rw [List.append_nil, Nat.add_zero, List.take_append_drop]

/-- Strings that are copied one behind the other. -/
theorem overwrite_overwrite {b x y : Str} {p : Nat} (h : p + x.length ≤ b.length) :
    overwrite (overwrite b p x) (p + x.length) y = overwrite b p (x ++ y) := by
  have hfront : (b.take p ++ x).length = p + x.length := by
    rw [List.length_append, List.length_take, Nat.min_eq_left (by omega)]
  have hback : (overwrite b p x).drop (p + x.length + y.length)
      = b.drop (p + (x ++ y).length) := by
    rw [← List.drop_drop]
    show ((b.take p ++ x ++ b.drop (p + x.length)).drop (p + x.length)).drop y.length = _
    rw [List.drop_left' hfront, List.drop_drop, List.length_append, Nat.add_assoc]
  have htake : (overwrite b p x).take (p + x.length) = b.take p ++ x := List.take_left' hfront
  show (overwrite b p x).take (p + x.length) ++ y ++ (overwrite b p x).drop _ = _
  rw [hback, htake, List.append_assoc (b.take p)]
  rfl

theorem length_overwrite {b x : Str} {p : Nat} (h : p + x.length ≤ b.length) :
    (overwrite b p x).length = b.length := by
  unfold overwrite
  rw [List.length_append, List.length_append, List.length_take, List.length_drop]
  omega

/-- What `read_block` returns and copies is made of the answer. -/
theorem readBlock_run (h : readBlock net l authCode ent j ptr buf s = .ok ((r, buf'), s')) :
    ∃ a data, askNode net l authCode "READ" (ascii "0") [] ent j s = .ok (a, s') ∧
      readReply ent a = .ok (r, data) ∧ data.length ≤ buf.length - ptr ∧
      buf' = overwrite buf ptr data := by
  obtain ⟨entrys, s₁, hcheck, h₁⟩ := bind_ok.mp h
  obtain ⟨ok, s₂, hconnect, h₂⟩ := bind_ok.mp h₁
  have hask : askNode net l authCode "READ" (ascii "0") [] ent j s
      = (if ok then net.transfer (ent.dNodes j) entrys [] else return none) s₂ :=
    (bind_run hcheck _).trans (bind_run hconnect _)
  cases ok with
  | false =>
    cases h₂
    exact ⟨none, [], hask, rfl, Nat.zero_le _, (overwrite_nil _ _).symm⟩
  | true =>
    rw [if_pos rfl] at h₂
    obtain ⟨a, s₃, htransfer, h₃⟩ := bind_ok.mp h₂
    obtain ⟨q, s₄, hreply, h₄⟩ := bind_ok.mp h₃
    obtain ⟨hq, rfl⟩ := check_done hreply
    obtain ⟨ret, data⟩ := q
    dsimp only at h₄
    split at h₄
    · rename_i hle
      cases h₄
      exact ⟨a, data, hask.trans htransfer, hq, hle, rfl⟩
    · cases h₄

/-- The value counts as a success just when the block was delivered; without success no byte is
copied. -/
theorem readReply_done {a : Option Answer} {data : Str} (h : readReply ent a = .ok (r, data)) :
    (r ≥ ent.lengthInBlock.toNat ∧ Delivers ent a data ∧ data.length = ent.lengthInBlock.toNat) ∨
      ¬ r ≥ ent.lengthInBlock.toNat ∧ (∀ data', ¬ Delivers ent a data') ∧ data = [] := by
  cases a with
  | none =>
    cases h
    refine .inr ⟨by omega, fun data' hd => ?_, rfl⟩
    cases hd
  | some a =>
    unfold readReply at h
    by_cases hok : a.saysOk = true
    · simp only [hok, if_true] at h
      cases hvalue : valueOf a.entrys CONTENT_LEN with
      | none =>
        simp only [hvalue] at h
        cases h
        refine .inr ⟨by omega, fun data' hd => ?_, rfl⟩
        cases hd with
        | ok title announced => cases hvalue.symm.trans announced
        | empty notOk => cases hok.symm.trans notOk
      | some value =>
        simp only [hvalue] at h
        by_cases hlen : u64OfInt (atoll value) = ent.lengthInBlock.toNat
        · rw [if_neg (not_not.mpr hlen)] at h
          by_cases hle : u64OfInt (atoll value) ≤ a.data.length
          · rw [if_pos hle] at h
            cases h
            rw [hlen] at hle ⊢
            refine .inl ⟨Int.le_refl _, .ok hok hvalue hlen hle, ?_⟩
            rw [List.length_take, Nat.min_eq_left hle]
          · rw [if_neg hle] at h
            cases h
        · rw [if_pos hlen] at h
          cases h
          refine .inr ⟨by omega, fun data' hd => ?_, rfl⟩
          cases hd with
          | ok title announced length =>
            cases hvalue.symm.trans announced
            exact hlen length
          | empty notOk => cases hok.symm.trans notOk
    · have hnot : a.saysOk = false := Bool.eq_false_iff.mpr hok
      simp only [hnot, Bool.false_eq_true, if_false] at h
      by_cases herr : a.saysErr = true
      · rw [if_pos herr] at h
        cases h
        refine .inr ⟨by omega, fun data' hd => ?_, rfl⟩
        cases hd with
        | ok title => exact hok title
        | empty _ notErr => cases herr.symm.trans notErr
      · have hnotErr : a.saysErr = false := Bool.eq_false_iff.mpr herr
        rw [if_neg herr] at h
        cases h
        by_cases hzero : ent.lengthInBlock.toNat = 0
        · exact .inl ⟨by omega, .empty hnot hnotErr hzero, hzero.symm⟩
        · refine .inr ⟨by omega, fun data' hd => ?_, rfl⟩
          cases hd with
          | ok title => exact hok title
          | empty _ _ length => exact hzero length

/-- An answer delivers one string at most. -/
theorem Delivers.unique {a : Option Answer} {data data' : Str} (h : Delivers ent a data)
    (h' : Delivers ent a data') : data = data' := by
  cases h with
  | ok title =>
    cases h' with
    | ok => rfl
    | empty notOk => cases title.symm.trans notOk
  | empty notOk =>
    cases h' with
    | ok title => cases title.symm.trans notOk
    | empty => rfl

/-- The requests for a block have one outcome. -/
theorem Fetched.unique {js : List (Fin (REDUNDANCY + 1))} {o o' : Option Str} {s₁ s₂ : σ}
    (h : Fetched net l authCode ent js o s s₁) (h' : Fetched net l authCode ent js o' s s₂) :
    o = o' ∧ s₁ = s₂ := by
  induction h with
  | nil =>
    cases h'
    exact ⟨rfl, rfl⟩
  | skip zero rest ih =>
    cases h' with
    | skip _ rest' => exact ih rest'
    | miss node => exact absurd zero node
    | hit node => exact absurd zero node
  | miss node heard fails rest ih =>
    cases h' with
    | skip zero => exact absurd zero node
    | miss _ heard' _ rest' =>
      cases heard.symm.trans heard'
      exact ih rest'
    | hit _ heard' delivers =>
      cases heard.symm.trans heard'
      exact absurd delivers (fails _)
  | hit node heard delivers =>
    cases h' with
    | skip zero => exact absurd zero node
    | miss _ heard' fails =>
      cases heard.symm.trans heard'
      exact absurd delivers (fails _)
    | hit _ heard' delivers' =>
      cases heard.symm.trans heard'
      exact ⟨congrArg some (delivers.unique delivers'), rfl⟩

/-- The inner loop ends with the first node that delivers, and copies what that node has sent. -/
theorem readReplicas_done {js : List (Fin (REDUNDANCY + 1))} {k : Bool}
    (h : readReplicas (fun j => readBlock net l authCode ent j ptr) ent js buf s
      = .ok ((k, buf'), s')) :
    (k = true ∧ ∃ data, Fetched net l authCode ent js (some data) s s' ∧
      data.length = ent.lengthInBlock.toNat ∧ data.length ≤ buf.length - ptr ∧
      buf' = overwrite buf ptr data) ∨
      k = false ∧ buf' = buf ∧ Fetched net l authCode ent js none s s' := by
  induction js generalizing s with
  | nil =>
    cases h
    exact .inr ⟨rfl, rfl, .nil⟩
  | cons j js ih =>
    rw [readReplicas] at h
    by_cases hnode : ent.dNodes j = 0
    · rw [if_neg (not_not.mpr hnode)] at h
      rcases ih h with ⟨hk, data, hfetch, hrest⟩ | ⟨hk, hbuf, hfetch⟩
      · exact .inl ⟨hk, data, .skip hnode hfetch, hrest⟩
      · exact .inr ⟨hk, hbuf, .skip hnode hfetch⟩
    · rw [if_pos hnode] at h
      obtain ⟨⟨r, buf₁⟩, s₁, hread, hrest⟩ := bind_ok.mp h
      obtain ⟨a, data, hask, hreply, hfits, rfl⟩ := readBlock_run hread
      dsimp only at hrest
      rcases readReply_done hreply with ⟨hr, hdel, hlen⟩ | ⟨hr, hdel, rfl⟩
      · rw [if_pos hr] at hrest
        cases hrest
        exact .inl ⟨rfl, data, .hit hnode hask hdel, hlen, hfits, rfl⟩
      · rw [if_neg hr, overwrite_nil] at hrest
        rcases ih hrest with ⟨hk, data, hfetch, hrest⟩ | ⟨hk, hbuf, hfetch⟩
        · exact .inl ⟨hk, data, .miss hnode hask hdel hfetch, hrest⟩
        · exact .inr ⟨hk, hbuf, .miss hnode hask hdel hfetch⟩

/-- The value of `read_blocks` is the end of the data, which then stand in the buffer, or -1 after
a block that no node has delivered. -/
theorem readBlocks_done (hptr : ptr ≤ buf.length)
    (h : readBlocks (readBlock net l authCode) es ptr buf s = .ok ((r, buf'), s')) :
    (∃ datas, AllFetched net l authCode es datas s s' ∧ r = ((ptr + lengths es : Nat) : Int) ∧
      datas.flatten.length = lengths es ∧ buf' = overwrite buf ptr datas.flatten) ∨
      r = -1 ∧ ∀ datas s₁, ¬ AllFetched net l authCode es datas s s₁ := by
  induction es generalizing ptr buf s with
  | nil =>
    cases h
    exact .inl ⟨[], .nil, rfl, rfl, (overwrite_nil _ _).symm⟩
  | cons ent es ih =>
    obtain ⟨⟨k, buf₁⟩, s₁, hreplicas, hrest⟩ := bind_ok.mp h
    dsimp only at hrest
    rcases readReplicas_done hreplicas with ⟨rfl, data, hfetch, hlen, hfits,
      rfl⟩ | ⟨rfl, rfl, hfetch⟩
    · rw [if_pos rfl] at hrest
      have hroom : ptr + data.length ≤ buf.length := by omega
      rw [← hlen] at hrest
      rcases ih (by rw [length_overwrite hroom]; exact hroom) hrest with
        ⟨datas, hall, hr, hflat, hbuf⟩ | ⟨hr, hnone⟩
      · refine .inl ⟨data :: datas, .cons hfetch hall, ?_, ?_, ?_⟩
        · rw [hr, lengths_cons, hlen, Nat.add_assoc]
        · rw [List.flatten_cons, List.length_append, hflat, hlen, lengths_cons]
        · rw [hbuf, overwrite_overwrite hroom, List.flatten_cons]
      · refine .inr ⟨hr, fun datas s₂ hall => ?_⟩
        cases hall with
        | cons block rest =>
          obtain ⟨-, rfl⟩ := hfetch.unique block
          exact hnone _ _ rest
    · rw [if_neg (by decide)] at hrest
      cases hrest
      refine .inr ⟨rfl, fun datas s₂ hall => ?_⟩
      cases hall with
      | cons block rest => cases (hfetch.unique block).1

end Reading

/-! ## When the reports are true -/

section Reports

variable {net : Link σ} {l : Login} {authCode buf : Str} {ent : BlockEntry} {es : List BlockEntry}
  {ptr : Nat} {s s' : σ}

theorem Written.mem {write : BlockEntry → Fin (REDUNDANCY + 1) → Nat → Prog σ Int}
    (h : Written write es ptr s s') (he : ent ∈ es) :
    ∃ ptr' rs s₁ s₂, Asks write ent ptr' rs s₁ s₂ ∧ ∀ q ∈ rs, Acked ent q := by
  induction h with
  | nil => cases he
  | cons asks acked rest ih =>
    rcases List.mem_cons.mp he with rfl | he
    · exact ⟨_, _, _, _, asks, acked⟩
    · exact ih he

/-- A node that is named has confirmed some bytes. -/
theorem Confirmed.length_ne {js : List (Fin (REDUNDANCY + 1))}
    (h : Confirmed net l authCode buf ent ptr js s s') {j : Fin (REDUNDANCY + 1)} (hj : j ∈ js)
    (hnode : ent.dNodes j ≠ 0) : ent.lengthInBlock.toNat ≠ 0 := by
  induction h with
  | nil => cases hj
  | skip zero rest ih =>
    rcases List.mem_cons.mp hj with rfl | hj
    · exact absurd zero hnode
    · exact ih hj
  | ask node bytes heard confirms rest ih => exact confirms.1

/-- The parties that agree to everything. -/
def agreeable : Link Unit :=
  ⟨fun _ _ s => .ok (none, s), fun _ s => .ok (true, s), fun _ _ _ s =>
    .ok (some ⟨REQUEST_OK, [], []⟩, s)⟩

def guest : Login := ⟨[], [], Nat.zero_le _, Nat.zero_le _⟩

theorem agreeable_writeBlock {j : Fin (REDUNDANCY + 1)} (hlen : ent.lengthInBlock.toNat ≠ 0)
    (hroom : ptr + ent.lengthInBlock.toNat ≤ buf.length) :
    writeBlock agreeable guest [] buf ent j ptr () = .ok ((ent.lengthInBlock.toNat : Int), ()) := by
  have hask : askNode agreeable guest [] "WRITE" (decimal 0 (s32 ent.lengthInBlock.toNat))
      (slice buf ptr ent.lengthInBlock.toNat) ent j () = .ok (some ⟨REQUEST_OK, [], []⟩, ()) := rfl
  rw [writeBlock_asked (length_slice hroom) hask, if_neg hlen]
  rfl

theorem agreeable_rounds (hlen : ent.lengthInBlock.toNat = 0 → ¬ HasNode ent)
    (hroom : ptr + ent.lengthInBlock.toNat ≤ buf.length) (js : List (Fin (REDUNDANCY + 1))) :
    ∃ rs, Rounds (fun j => writeBlock agreeable guest [] buf ent j ptr) ent js rs () () ∧
      ∀ q ∈ rs, Acked ent q := by
  induction js with
  | nil => exact ⟨[], .nil, fun q hq => (List.not_mem_nil hq).elim⟩
  | cons j js ih =>
    obtain ⟨rs, hrounds, hacked⟩ := ih
    by_cases hnode : ent.dNodes j = 0
    · exact ⟨rs, .skip hnode hrounds, hacked⟩
    · have hpos : ent.lengthInBlock.toNat ≠ 0 := fun hzero => hlen hzero ⟨j, hnode⟩
      refine ⟨_, .ask hnode (agreeable_writeBlock hpos hroom) hrounds, fun q hq => ?_⟩
      rcases List.mem_cons.mp hq with rfl | hq
      · exact Int.le_refl _
      · exact hacked q hq

theorem agreeable_written (hlen : ∀ e ∈ es, e.lengthInBlock.toNat = 0 → ¬ HasNode e)
    (hroom : ptr + lengths es ≤ buf.length) :
    Written (writeBlock agreeable guest [] buf) es ptr () () := by
  induction es generalizing ptr with
  | nil => exact .nil
  | cons e es ih =>
    rw [lengths_cons] at hroom
    obtain ⟨rs, hrounds, hacked⟩ := agreeable_rounds (hlen e (List.mem_cons_self ..))
      (by omega : ptr + e.lengthInBlock.toNat ≤ buf.length) (List.finRange (REDUNDANCY + 1))
    exact .cons hrounds hacked
      (ih (fun e he => hlen e (List.mem_cons_of_mem _ he)) (by omega))

/-- With a block that has no node a write can succeed that nobody has seen. -/
theorem not_truthful (hnone : ∃ e ∈ es, ¬ HasNode e)
    (hlen : ∀ e ∈ es, e.lengthInBlock.toNat = 0 → ¬ HasNode e) : ¬ Truthful es := by
  intro h
  obtain ⟨e, he, hnode⟩ := hnone
  have hbuf : 0 + lengths es ≤ (List.replicate (lengths es) (0 : UInt8)).length := by
    rw [List.length_replicate, Nat.zero_add]
  have hrun := writeBlocks_run (agreeable_written hlen hbuf)
  rcases (h Unit agreeable guest [] _ () ()).1 _ hrun with ⟨-, hall⟩ | ⟨hr, -⟩
  · exact hnode (hall.written.2 e he)
  · omega

end Reports

/-- What `write_blocks` and `read_blocks` report is true of a list in which every block has a node,
and of one where a block of no bytes has one, which is never written; but of no other. -/
theorem truthful_iff (es : List BlockEntry) : Truthful es ↔ (∀ e ∈ es, HasNode e) ∨
    ∃ e ∈ es, e.lengthInBlock.toNat = 0 ∧ HasNode e := by
  constructor
  · intro h
    by_contra hneg
    obtain ⟨hall, hzero⟩ := not_or.mp hneg
    push Not at hall hzero
    exact not_truthful hall hzero h
  · intro h σ net l authCode buf s s'
    constructor
    · intro r hrun
      rcases writeBlocks_done hrun with ⟨hr, hw⟩ | ⟨hr, -⟩
      · rw [Nat.zero_add] at hr
        refine .inl ⟨hr, ?_⟩
        rcases h with hnode | ⟨e, he, hzero, j, hj⟩
        · exact .of_written hw hnode
        · obtain ⟨ptr, rs, s₁, s₂, hasks, hacked⟩ := Written.mem hw he
          have hpos := (Confirmed.of_rounds hasks hacked).length_ne (List.mem_finRange j) hj
          exact absurd hzero hpos
      · refine .inr ⟨hr, fun hall => ?_⟩
        cases hrun.symm.trans (writeBlocks_run hall.written.1)
        omega
    · intro r buf' hrun
      rcases readBlocks_done (Nat.zero_le _) hrun with ⟨datas, hall, hr, hflat, hbuf⟩ | ⟨hr, hnone⟩
      · rw [Nat.zero_add] at hr
        exact .inl ⟨datas, hall, hr, hflat, hbuf⟩
      · exact .inr ⟨hr, fun datas => hnone datas s'⟩

/-- A block of five bytes without a node. -/
def nowhere : BlockEntry := ⟨0, 0, 5, fun _ => 0⟩

/-- Its write returns 5 without a request. -/
theorem nowhere_not_truthful : ¬ Truthful [nowhere] := by
  have hnode : ¬ HasNode nowhere := by
    intro h
    obtain ⟨j, hj⟩ := h
    exact hj rfl
  refine not_truthful ⟨nowhere, List.mem_singleton_self _, hnode⟩ fun e he _ => ?_
  obtain rfl := List.mem_singleton.mp he
  exact hnode

end Sbpfs.Libc.TransferLaws
