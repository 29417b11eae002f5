import Sbpfs.Dnode.BlockStore
import Sbpfs.Libc.TransferSpec
import Sbpfs.Net.Parties

/-!
# One request after another

What a request does to the other parties: a data node takes a segment once or is left as it was,
and the control node's reply to a write lists the entries of `c_write`.
-/
namespace Sbpfs.Net.TransferSteps

open Sbpfs.Lib.Program Sbpfs.Lib.Raise Sbpfs.Lib.Memory Sbpfs.Lib.Pack
open Sbpfs.Cfs.Layout (s32 u64OfInt u32)
open Sbpfs.Wire.Head Sbpfs.Wire.Number Sbpfs.Libc.Request Sbpfs.Libc.Table
open Sbpfs.Libc.Transfer Sbpfs.Libc.TransferSpec
open Sbpfs.Cnode.Libcfs
open Sbpfs.Dnode.Blockman Sbpfs.Dnode.Serve Sbpfs.Dnode.BlockSpec
open Sbpfs.Dnode.BlockStore (Willing willing_later)
open Sbpfs.Net.Parties
open Sbpfs.Cnode.Users (UsersInfo)

/-! ## The fields of a request -/

section Requests

variable {l : Login} {authCode contentLen data : Str} {method : String} {ent : BlockEntry}
  {entrys : List HeadEntry}

theorem valueOf_request (h : blockEntrys l authCode method ent contentLen = .ok entrys) :
    valueOf entrys METHOD = some (ascii method) ∧
      valueOf entrys (argName 0) = some (decimal 0 (s64 ent.blockId.toNat)) ∧
      valueOf entrys (argName 1) = some (decimal 0 (s32 ent.offsetInBlock.toNat)) ∧
      valueOf entrys (argName 2) = some (decimal 0 (s32 ent.lengthInBlock.toNat)) ∧
      valueOf entrys CONTENT_LEN = some contentLen := by
  unfold blockEntrys prepareRequest at h
  dsimp only at h
  split at h
  · cases h
    have h0 : argName 0 = ascii "Arg0" := rfl
    have h1 : argName 1 = ascii "Arg1" := rfl
    have h2 : argName 2 = ascii "Arg2" := rfl
    have hargs : ∀ a b c, argEntries [a, b, c] = [⟨argName 0, a⟩, ⟨argName 1, b⟩, ⟨argName 2, c⟩] :=
      fun _ _ _ => rfl
    rw [hargs, h0, h1, h2]
    exact ⟨rfl, rfl, rfl, rfl, rfl⟩
  · cases h

/-- The data node reads the numbers that the client has written. -/
theorem entryOf_request {req : UInt32}
    (h : blockEntrys l authCode method ent contentLen = .ok entrys)
    (hreq : reqOf (ascii method) = some req) :
    entryOf entrys data = some ⟨req, ent.offsetInBlock, ent.lengthInBlock, ent.blockId,
      if req = 1 then 0 else atoull contentLen, if req = 1 then [] else data⟩ := by
  obtain ⟨hmethod, h0, h1, h2, hlen⟩ := valueOf_request h
  unfold entryOf
  rw [hmethod, h0, h1, h2, hlen, Option.bind_some, hreq]
  show some (ListEntry.mk _ (atou _) (atou _) (atoull _) _ _) = _
  rw [atou_decimal, atou_decimal, atoull_decimal]

theorem serveFields_write (h : blockEntrys l authCode "WRITE" ent contentLen = .ok entrys) :
    serveFields entrys data = processWrite ⟨2, ent.offsetInBlock, ent.lengthInBlock, ent.blockId,
      atoull contentLen, data⟩ := by
  unfold serveFields
  rw [entryOf_request h (by decide : reqOf (ascii "WRITE") = some 2)]
  rfl

end Requests

/-! ## The data node's side of a write -/

theorem onNode_done {α : Type} {m : DM α} {c c' : Conn} {a : α} (h : onNode m c = .ok (a, c')) :
    ∃ d, m c.node = .ok (a, d) ∧ c' = { c with node := d } := focus_ok.mp h

/-- A message is sent or lost, which is all the same to the files. -/
theorem sendMessage_done {a : Answer} {c c' : Conn} {u : Unit}
    (h : sendMessage sendHead a c = .ok (u, c')) :
    c'.node.files = c.node.files ∧ c'.node.env.opens = c.node.env.opens := by
  rw [sendMessage_run (sendHead_run c)] at h
  cases h
  obtain ⟨j, k, hused⟩ := used_headed c.node
  dsimp only
  rw [hused]
  exact ⟨rfl, rfl⟩

/-- The NUL behind the data is no other byte than the one that stands for none. -/
theorem memOf_nul (s : Str) : memOf (s ++ [0]) (fun _ => 0) = memOf s fun _ => 0 := by
  funext i
  unfold memOf
  rcases Nat.lt_trichotomy i s.length with h | h | h
  · rw [List.getElem?_append_left h]
  · rw [h, List.getElem?_concat_length, List.getElem?_eq_none (Nat.le_refl _)]
    rfl
  · rw [List.getElem?_eq_none (by simp; omega), List.getElem?_eq_none (by omega)]

/-- A write that the data node gets to the end of has stored the data. -/
theorem processWrite_done {ent : ListEntry} {data : Str} {d : DNode} {c : Conn} {u : Unit}
    (hdata : ent.data = data ++ [0]) (hlen : ent.length.toNat ≤ data.length)
    (h : processWrite ent ⟨d, []⟩ = .ok (u, c)) :
    Stored ent.blockNum ent.offset.toNat ent.length.toNat data d c.node ∧
      (Willing d → Willing c.node) := by
  obtain ⟨r, c₁, hwrite, h₁⟩ := bind_ok.mp h
  obtain ⟨d₁, hd₁, rfl⟩ := onNode_done hwrite
  rcases writeblock_done hd₁ with ⟨rfl, hst⟩ | rfl
  · obtain ⟨hfiles, hopens⟩ := sendMessage_done (c := ⟨d₁, []⟩) h₁
    have hsame : ∀ b, block c.node b = block d₁ b := fun b => congrFun hfiles (pathOf b)
    obtain ⟨f, hf, hat⟩ := hst.spliced
    rw [hdata, memOf_nul] at hat
    refine ⟨⟨hlen, ⟨f, hf, (hsame _).trans hat⟩,
      fun b' hb' => (hsame b').trans (hst.other b' hb')⟩, fun hd k => ?_⟩
    have hd' : Willing d₁ := willing_later ((keeps_writeblock _ _ _ _).rel hd₁) hd
    exact (congrFun hopens k).trans (hd' k)
  · obtain ⟨u', c₂, -, hfault⟩ := bind_ok.mp h₁
    cases hfault

/-! ## One request to a data node -/

/-- What a request with the data of one block does: the node at `a` stores the data, or it is
left as it was, or it is lost. Only a node that has stored the data is heard to say so. -/
inductive WriteStep (ent : BlockEntry) (data : Str) (a : UInt32) : Int → Cluster → Cluster → Prop
  | stored {s s' : Cluster} {d d' : DNode} {r : Int} (ctrl : s'.ctrl = s.ctrl)
      (before : s.nodes a = some d) (after : s'.nodes = Function.update s.nodes a (some d'))
      (store : Stored ent.blockId ent.offsetInBlock.toNat ent.lengthInBlock.toNat data d d')
      (opens : Willing d → Willing d') :
      WriteStep ent data a r s s'
  | refused {s s' : Cluster} (ctrl : s'.ctrl = s.ctrl) (after : s'.nodes = s.nodes) :
      WriteStep ent data a (-1) s s'
  | lost {s s' : Cluster} (ctrl : s'.ctrl = s.ctrl)
      (after : s'.nodes = Function.update s.nodes a none) : WriteStep ent data a (-1) s s'

section Writing

variable {users : UsersInfo} {uid : Int} {l : Login} {authCode buf : Str} {ent : BlockEntry}
  {j : Fin (REDUNDANCY + 1)} {ptr : Nat} {s s' : Cluster}

/-- The data of a block in the buffer of the caller. -/
def segmentData (buf : Str) (ent : BlockEntry) (ptr : Nat) : Str :=
  slice buf ptr ent.lengthInBlock.toNat

theorem writeBlock_done {r : Int}
    (h : writeBlock (netLink users uid) l authCode buf ent j ptr s = .ok (r, s')) :
    WriteStep ent (segmentData buf ent ptr) (ent.dNodes j) r s s' := by
  obtain ⟨entrys, s₁, hcheck, h₁⟩ := bind_ok.mp h
  obtain ⟨hentrys, rfl⟩ := check_done hcheck
  obtain ⟨ok, s₂, hconnect, h₂⟩ := bind_ok.mp h₁
  change connect (ent.dNodes j) s₁ = _ at hconnect
  unfold connect at hconnect
  split at hconnect
  · cases hconnect
    cases h₂
    exact .refused rfl rfl
  rename_i hup
  cases hconnect
  dsimp only at h₂
  rw [if_pos rfl] at h₂
  split at h₂
  swap
  · cases h₂
  rename_i hlen
  obtain ⟨a, s₃, htransfer, hret⟩ := bind_ok.mp h₂
  obtain ⟨rfl, rfl⟩ := pure_ok.mp hret
  change transfer (ent.dNodes j) entrys (segmentData buf ent ptr) _ = _ at htransfer
  unfold transfer at htransfer
  cases hnode : s₁.nodes (ent.dNodes j) with
  | none => exact absurd (.inr hnode) hup
  | some d =>
    rw [hnode, serveFields_write hentrys] at htransfer
    dsimp only at htransfer
    cases hserve : processWrite ⟨2, ent.offsetInBlock, ent.lengthInBlock, ent.blockId,
        atoull (decimal 0 (s32 ent.lengthInBlock.toNat)), segmentData buf ent ptr ++ [0]⟩
        ⟨d, []⟩ with
    | error e =>
      rw [hserve] at htransfer
      cases htransfer
      have hr : (if ent.lengthInBlock.toNat = 0 then -1 else writeReply ent none) = -1 := by
        split <;> rfl
      rw [hr]
      exact .lost rfl rfl
    | ok q =>
      rw [hserve] at htransfer
      cases htransfer
      obtain ⟨hst, hopens⟩ := processWrite_done rfl (Nat.le_of_eq hlen.symm) hserve
      exact .stored rfl hnode rfl hst hopens

end Writing

/-! ## All requests of a write -/

/-- The data of the entries in `l` are stored one after another. -/
inductive Stores : List (BlockEntry × Str) → DNode → DNode → Prop
  | nil {d : DNode} : Stores [] d d
  | cons {ent : BlockEntry} {data : Str} {l : List (BlockEntry × Str)} {d d₁ d' : DNode}
      (store : Stored ent.blockId ent.offsetInBlock.toNat ent.lengthInBlock.toNat data d d₁)
      (opens : Willing d → Willing d₁) (rest : Stores l d₁ d') : Stores ((ent, data) :: l) d d'

theorem Stores.append {l₁ l₂ : List (BlockEntry × Str)} {d d₁ d' : DNode} (h : Stores l₁ d d₁)
    (h' : Stores l₂ d₁ d') : Stores (l₁ ++ l₂) d d' := by
  induction h with
  | nil => exact h'
  | cons store opens _ ih => exact .cons store opens (ih h')

/-- Unless it is lost, the node at `a` has stored `l`. -/
def Takes (a : UInt32) (l : List (BlockEntry × Str)) (s s' : Cluster) : Prop :=
  ∀ d', s'.nodes a = some d' → ∃ d, s.nodes a = some d ∧ Stores l d d'

theorem Takes.refl (a : UInt32) (s : Cluster) : Takes a [] s s := fun d' h => ⟨d', h, .nil⟩

theorem Takes.append {a : UInt32} {l₁ l₂ : List (BlockEntry × Str)} {s s₁ s' : Cluster}
    (h : Takes a l₁ s s₁) (h' : Takes a l₂ s₁ s') : Takes a (l₁ ++ l₂) s s' := by
  intro d' hd'
  obtain ⟨d₁, hd₁, hs'⟩ := h' d' hd'
  obtain ⟨d, hd, hs⟩ := h d₁ hd₁
  exact ⟨d, hd, hs.append hs'⟩

/-- How many of the replicas in `js` are to be at `a`. -/
def copiesIn (ent : BlockEntry) (a : UInt32) (js : List (Fin (REDUNDANCY + 1))) : Nat :=
  js.countP fun j => ent.dNodes j = a ∧ ent.dNodes j ≠ 0

def copies (ent : BlockEntry) (a : UInt32) : Nat := copiesIn ent a (List.finRange (REDUNDANCY + 1))

/-- What a write of the entries to all their nodes gives the node at `a` to store. -/
def segmentsAt (buf : Str) (a : UInt32) : List BlockEntry → Nat → List (BlockEntry × Str)
  | [], _ => []
  | ent :: es, ptr => List.replicate (copies ent a) (ent, segmentData buf ent ptr) ++
      segmentsAt buf a es (ptr + ent.lengthInBlock.toNat)

theorem WriteStep.ctrl_eq {ent : BlockEntry} {data : Str} {a : UInt32} {r : Int} {s s' : Cluster}
    (h : WriteStep ent data a r s s') : s'.ctrl = s.ctrl := by
  cases h with
  | stored ctrl => exact ctrl
  | refused ctrl => exact ctrl
  | lost ctrl => exact ctrl

/-- Another node is not touched. -/
theorem WriteStep.takes_other {ent : BlockEntry} {data : Str} {a a' : UInt32} {r : Int}
    {s s' : Cluster} (h : WriteStep ent data a r s s') (ha : a' ≠ a) : Takes a' [] s s' := by
  have hsame : s'.nodes a' = s.nodes a' := by
    cases h with
    | stored _ _ after _ _ => rw [after, Function.update_of_ne ha]
    | refused _ after => rw [after]
    | lost _ after => rw [after, Function.update_of_ne ha]
  exact fun d' hd' => ⟨d', hsame ▸ hd', .nil⟩

/-- The node that is asked stores the data once or not at all, and once if it is heard to. -/
theorem WriteStep.takes {ent : BlockEntry} {data : Str} {a : UInt32} {r : Int} {s s' : Cluster}
    (h : WriteStep ent data a r s s') : ∃ n, n ≤ 1 ∧ (r ≥ ent.lengthInBlock.toNat → n = 1) ∧
      Takes a (List.replicate n (ent, data)) s s' := by
  cases h with
  | stored _ before after store opens =>
    refine ⟨1, Nat.le_refl _, fun _ => rfl, fun d' hd' => ?_⟩
    rw [after, Function.update_self] at hd'
    cases hd'
    exact ⟨_, before, .cons store opens .nil⟩
  | refused _ after =>
    refine ⟨0, Nat.zero_le _, fun h => absurd h (by omega), fun d' hd' => ?_⟩
    exact ⟨d', after ▸ hd', .nil⟩
  | lost _ after =>
    refine ⟨0, Nat.zero_le _, fun h => absurd h (by omega), fun d' hd' => ?_⟩
    rw [after, Function.update_self] at hd'
    cases hd'

section Lists

variable {users : UsersInfo} {uid : Int} {l : Login} {authCode buf : Str} {ent : BlockEntry}
  {es : List BlockEntry} {ptr : Nat} {s s' : Cluster}

/-- The requests for one block. -/
theorem rounds_take {js : List (Fin (REDUNDANCY + 1))} {rs : List (Fin (REDUNDANCY + 1) × Int)}
    (h : Rounds (fun j => writeBlock (netLink users uid) l authCode buf ent j ptr) ent js rs s s') :
    s'.ctrl = s.ctrl ∧ ∀ a, ∃ n, n ≤ copiesIn ent a js ∧
      ((∀ q ∈ rs, Acked ent q) → n = copiesIn ent a js) ∧
      Takes a (List.replicate n (ent, segmentData buf ent ptr)) s s' := by
  induction h with
  | nil => exact ⟨rfl, fun a => ⟨0, Nat.le_refl _, fun _ => rfl, Takes.refl _ _⟩⟩
  | @skip j js rs s s' zero rest ih =>
    obtain ⟨hctrl, htake⟩ := ih
    refine ⟨hctrl, fun a => ?_⟩
    have hcount : copiesIn ent a (j :: js) = copiesIn ent a js :=
      List.countP_cons_of_neg (by simp [zero])
    rw [hcount]
    exact htake a
  | @ask j js r rs s s₁ s' node run rest ih =>
    obtain ⟨hctrl, htake⟩ := ih
    have hstep := writeBlock_done run
    refine ⟨hctrl.trans hstep.ctrl_eq, fun a => ?_⟩
    obtain ⟨n, hn, hall, htakes⟩ := htake a
    by_cases ha : ent.dNodes j = a
    · subst ha
      have hcount : copiesIn ent (ent.dNodes j) (j :: js)
          = copiesIn ent (ent.dNodes j) js + 1 := List.countP_cons_of_pos (by simp [node])
      obtain ⟨m, hm, hone, hfirst⟩ := hstep.takes
      refine ⟨m + n, by omega, fun hacked => ?_, ?_⟩
      · have h1 := hone (hacked _ (List.mem_cons_self ..))
        have hrest := hall fun q hq => hacked q (List.mem_cons_of_mem _ hq)
        omega
      · rw [List.replicate_add]
        exact hfirst.append htakes
    · have hcount : copiesIn ent a (j :: js) = copiesIn ent a js :=
        List.countP_cons_of_neg (by simp [ha])
      rw [hcount]
      refine ⟨n, hn, fun hacked => hall fun q hq => hacked q (List.mem_cons_of_mem _ hq), ?_⟩
      have hfirst := hstep.takes_other (Ne.symm ha)
      exact hfirst.append htakes

/-- A write that every node has acknowledged is stored by every node. -/
theorem written_takes
    (h : Written (writeBlock (netLink users uid) l authCode buf) es ptr s s') :
    s'.ctrl = s.ctrl ∧ ∀ a, Takes a (segmentsAt buf a es ptr) s s' := by
  induction h with
  | nil => exact ⟨rfl, fun a => Takes.refl a _⟩
  | cons asks acked rest ih =>
    obtain ⟨hctrl, htake⟩ := rounds_take asks
    refine ⟨ih.1.trans hctrl, fun a => ?_⟩
    obtain ⟨n, -, hall, htakes⟩ := htake a
    obtain rfl := hall acked
    exact htakes.append (ih.2 a)

/-- A write that has ended early is stored in front of the block where it ended, and of that
block by some of its nodes. -/
theorem halted_takes
    (h : Halted (writeBlock (netLink users uid) l authCode buf) es ent ptr s s') :
    s'.ctrl = s.ctrl ∧ ∀ a, ∃ n ≤ copies ent a, Takes a (segmentsAt buf a es ptr ++
      List.replicate n (ent, segmentData buf ent (ptr + lengths es))) s s' := by
  obtain ⟨rs, s₁, hwritten, hasks, -⟩ := h
  obtain ⟨hctrl, htake⟩ := written_takes hwritten
  obtain ⟨hctrl', htake'⟩ := rounds_take hasks
  refine ⟨hctrl'.trans hctrl, fun a => ?_⟩
  obtain ⟨n, hn, -, htakes⟩ := htake' a
  exact ⟨n, hn, (htake a).append htakes⟩

end Lists

end Sbpfs.Net.TransferSteps
