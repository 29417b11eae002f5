import Sbpfs.Libc.Request

/-! The bytes of a request: which entries it is made of, and when it is built at all. -/
namespace Sbpfs.Libc.RequestSpec

open Sbpfs.Lib.Program Sbpfs.Cfs.Layout Sbpfs.Wire.Head Sbpfs.Libc.Request

/-- A user name for which `tran_usr` has room. -/
def Fits (l : Login) : Prop := l.usr.length < MAX_USERNAME_LEN

theorem prepareRequest_eq {l : Login} (h : Fits l) : prepareRequest l
    = .ok [⟨USER, ascii "Client_" ++ bytesOf l.usr⟩, ⟨PASS, bytesOf l.pass⟩] := by
  have hlen : (ascii "Client_").length = 7 := by decide
  unfold prepareRequest
  dsimp only
  rw [if_pos]
  unfold Fits at h
  simp only [List.length_append, hlen, bytesOf, List.length_map, MAX_USERNAME_LEN,
    TRAN_USERNAME_LEN] at h ⊢
  omega

theorem prepareRequest_fault {l : Login} (h : ¬ Fits l) : prepareRequest l = .error .fault := by
  have hlen : (ascii "Client_").length = 7 := by decide
  unfold prepareRequest
  dsimp only
  rw [if_neg]
  unfold Fits at h
  simp only [List.length_append, hlen, bytesOf, List.length_map, MAX_USERNAME_LEN,
    TRAN_USERNAME_LEN] at h ⊢
  omega

/-- The entries of a request in front of its arguments. -/
def headEntries (l : Login) (method argc : String) : List HeadEntry :=
  [⟨USER, ascii "Client_" ++ bytesOf l.usr⟩, ⟨PASS, bytesOf l.pass⟩, ⟨METHOD, ascii method⟩,
    ⟨ARGC, ascii argc⟩]

/-- All entries of a request. -/
def requestEntries (l : Login) (method argc : String) (args : List Str) : List HeadEntry :=
  headEntries l method argc ++ (argEntries args ++ [⟨CONTENT_LEN, ascii "0"⟩])

theorem request_msg {l : Login} (hfit : Fits l) (method argc : String) {args : List Str}
    (hargs : args.length ≤ 27) : request l method argc args
      = .ok (some (PROTOCOL ++ crlf ++ entryLines (requestEntries l method argc args)
        ++ crlf)) := by
  have hlen : (requestEntries l method argc args).length ≤ MAX_ENTRY_IN_HEAD := by
    simp only [requestEntries, headEntries, argEntries, List.length_append, List.length_cons,
      List.length_nil, List.length_mapIdx, MAX_ENTRY_IN_HEAD]
    omega
  have hmsg : request l method argc args
      = .ok (makeHead PROTOCOL (requestEntries l method argc args)) := by
    unfold request
    rw [prepareRequest_eq hfit]
    change Except.ok _ = Except.ok _
    simp [requestEntries, headEntries]
  rw [hmsg, makeHead, if_neg (Nat.not_lt.mpr hlen)]

theorem request_fault {l : Login} (hfit : ¬ Fits l) (method argc : String) (args : List Str) :
    request l method argc args = .error .fault := by
  unfold request
  rw [prepareRequest_fault hfit]
  rfl

end Sbpfs.Libc.RequestSpec
