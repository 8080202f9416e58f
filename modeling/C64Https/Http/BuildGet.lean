import C64Https.Lib.Bytes
import C64Https.Lib.Word

/-!
# BuildGet — the request (`http_build_get` of `src/http.s`)

The request is put together from nine pieces under a cursor of eight bits, into a buffer of 256 bytes.
The path and the host come from wherever their pointers lead; their lengths are bounded elsewhere, by
the caps of the target prompt and by the assertions on the built-in strings.
-/

namespace C64Https
namespace Http

open Bytes Word

/-! ## The pieces -/

/-- `"GET "` -/
def httpGetVerb : List UInt8 :=
  [0x47, 0x45, 0x54, 0x20]

/-- `" HTTP/1.1", $0d, $0a` -/
def httpVersion : List UInt8 :=
  [0x20, 0x48, 0x54, 0x54, 0x50, 0x2f, 0x31, 0x2e, 0x31, 0x0d, 0x0a]

/-- `"Host: "` -/
def httpHostHdr : List UInt8 :=
  [0x48, 0x6f, 0x73, 0x74, 0x3a, 0x20]

/-- `"Connection: close", $0d, $0a` -/
def httpConnHdr : List UInt8 :=
  [ 0x43, 0x6f, 0x6e, 0x6e, 0x65, 0x63, 0x74, 0x69, 0x6f, 0x6e, 0x3a, 0x20, 0x63, 0x6c, 0x6f, 0x73,
    0x65, 0x0d, 0x0a ]

def httpCrlf : List UInt8 :=
  [0x0d, 0x0a]

/-- `"User-Agent: c64-https/0.1", $0d, $0a` -/
def httpUaHdr : List UInt8 :=
  [ 0x55, 0x73, 0x65, 0x72, 0x2d, 0x41, 0x67, 0x65, 0x6e, 0x74, 0x3a, 0x20, 0x63, 0x36, 0x34, 0x2d,
    0x68, 0x74, 0x74, 0x70, 0x73, 0x2f, 0x30, 0x2e, 0x31, 0x0d, 0x0a ]

/-! ## `http_build_get` -/

structure BuildGet where
  /-- `http_host_ptr` and `http_host_len` -/
  hostPtr : Nat
  hostLen : UInt8
  /-- `http_path_ptr` and `http_path_len` -/
  pathPtr : Nat
  pathLen : UInt8
  /-- `http_req_buf` -/
  reqBuf : Buffer
  /-- `http_req_len`, its high byte first -/
  reqLen : UInt8 × UInt8
  /-- `http_bg_idx` -/
  bgIdx : UInt8
  /-- the memory that the host and the path are in -/
  mem : Buffer

/-- `sta http_req_buf,x` and `inc http_bg_idx`. -/
def bgPut (r : BuildGet) (b : UInt8) : BuildGet :=
  { r with reqBuf := Function.update r.reqBuf r.bgIdx.toNat b, bgIdx := r.bgIdx + 1 }

/-- One of the loops over a constant, with its count. -/
def bgCopy (text : List UInt8) (n : Nat) (r : BuildGet) : BuildGet :=
  (List.range n).foldl (fun r x => bgPut r (text.getD x 0)) r

def bgCopyIndirect (ptr : Nat) (count : UInt8) (r : BuildGet) : BuildGet :=
  (List.range count.toNat).foldl (fun r y => bgPut r (r.mem (add16 ptr y))) r

def httpBuildGet (r : BuildGet) : BuildGet :=
  let r := { r with bgIdx := 0 }
  let r := bgCopy httpGetVerb 4 r
  let r := bgCopyIndirect r.pathPtr r.pathLen r
  let r := bgCopy httpVersion 11 r
  let r := bgCopy httpHostHdr 6 r
  let r := bgCopyIndirect r.hostPtr r.hostLen r
  let r := bgCopy httpCrlf 2 r
  let r := bgCopy httpUaHdr 27 r
  let r := bgCopy httpConnHdr 19 r
  let r := bgCopy httpCrlf 2 r
  { r with reqLen := (0, r.bgIdx) }

/-! ## The request -/

def textBytes (s : String) : List UInt8 :=
  s.toList.map fun c => UInt8.ofNat c.toNat

/-- The bytes that a pointer and a length describe. -/
def stringAt (mem : Buffer) (ptr n : Nat) : List UInt8 :=
  (List.range n).map fun i => mem (add16 ptr i)

@[simp] theorem length_stringAt (mem : Buffer) (ptr n : Nat) : (stringAt mem ptr n).length = n := by
  unfold stringAt
  rw [List.length_map, List.length_range]

/-- A GET for a path at a host, as it goes out. -/
def getRequest (host path : List UInt8) : List UInt8 :=
  textBytes "GET " ++ path ++ textBytes " HTTP/1.1\r\n" ++
    (textBytes "Host: " ++ host ++ textBytes "\r\n") ++
    textBytes "User-Agent: c64-https/0.1\r\n" ++
    textBytes "Connection: close\r\n" ++
    textBytes "\r\n"

theorem length_getRequest (host path : List UInt8) :
    (getRequest host path).length = path.length + host.length + 71 := by
  have hverb : (textBytes "GET ").length = 4 := rfl
  have hversion : (textBytes " HTTP/1.1\r\n").length = 11 := rfl
  have hhost : (textBytes "Host: ").length = 6 := rfl
  have hcrlf : (textBytes "\r\n").length = 2 := rfl
  have hua : (textBytes "User-Agent: c64-https/0.1\r\n").length = 27 := rfl
  have hconn : (textBytes "Connection: close\r\n").length = 19 := rfl
  unfold getRequest
  simp only [List.length_append, hverb, hversion, hhost, hcrlf, hua, hconn]
  omega

section Puts

/-- Bytes behind the cursor, one after the other. -/
def bgPuts (bs : List UInt8) (r : BuildGet) : BuildGet :=
  bs.foldl bgPut r

theorem bgPuts_append (as bs : List UInt8) (r : BuildGet) :
    bgPuts (as ++ bs) r = bgPuts bs (bgPuts as r) :=
  List.foldl_append

/-- Only the buffer and the cursor move. -/
theorem bgPuts_frame (bs : List UInt8) : ∀ r : BuildGet, ∃ buf idx,
    bgPuts bs r = { r with reqBuf := buf, bgIdx := idx } := by
  induction bs with
  | nil =>
      intro r
      exact ⟨r.reqBuf, r.bgIdx, rfl⟩
  | cons b bs ih =>
      intro r
      obtain ⟨buf, idx, h⟩ := ih (bgPut r b)
      exact ⟨buf, idx, h⟩

theorem bgCopy_eq {text : List UInt8} {n : Nat} (h : text.length = n) (r : BuildGet) :
    bgCopy text n r = bgPuts text r := by
  have htext : text = (List.range n).map fun x => text.getD x 0 := by
    refine List.ext_getElem ?_ ?_
    · rw [List.length_map, List.length_range, h]
    · intro i h₁ h₂
      rw [List.getElem_map, List.getElem_range, List.getD_eq_getElem _ _ h₁]
  unfold bgCopy bgPuts
  conv_rhs => rw [htext]
  rw [List.foldl_map]

theorem bgCopyIndirect_eq (ptr : Nat) (count : UInt8) (r : BuildGet) :
    bgCopyIndirect ptr count r = bgPuts (stringAt r.mem ptr count.toNat) r := by
  have hall : ∀ (is : List Nat) (r' : BuildGet), r'.mem = r.mem →
      is.foldl (fun r y => bgPut r (r.mem (add16 ptr y))) r' =
        bgPuts (is.map fun i => r.mem (add16 ptr i)) r' := by
    intro is
    induction is with
    | nil =>
        intro r' _
        rfl
    | cons i is ih =>
        intro r' hmem
        rw [List.foldl_cons, ih (bgPut r' _) hmem, List.map_cons, hmem]
        rfl
  exact hall _ r rfl

/-- As long as the cursor does not wrap, the bytes stand where it was. -/
theorem bgPuts_store (bs : List UInt8) : ∀ r : BuildGet, r.bgIdx.toNat + bs.length < 256 →
    (bgPuts bs r).reqBuf = store r.reqBuf r.bgIdx.toNat bs ∧
      (bgPuts bs r).bgIdx.toNat = r.bgIdx.toNat + bs.length := by
  have hone : (1 : UInt8).toNat = 1 := rfl
  induction bs with
  | nil =>
      intro r _
      exact ⟨(store_nil _ _).symm, rfl⟩
  | cons b bs ih =>
      intro r h
      rw [List.length_cons] at h
      have hnext : (r.bgIdx + 1).toNat = r.bgIdx.toNat + 1 := by
        rw [UInt8.toNat_add, hone]
        omega
      obtain ⟨hbuf, hidx⟩ := ih (bgPut r b) (by show (r.bgIdx + 1).toNat + _ < 256; omega)
      have hmove : (bgPut r b).bgIdx.toNat = r.bgIdx.toNat + 1 := hnext
      have hfirst : (bgPut r b).reqBuf = store r.reqBuf r.bgIdx.toNat [b] := update_eq_store _ _ _
      rw [hmove] at hbuf hidx
      constructor
      · have hjoin := store_store r.reqBuf r.bgIdx.toNat [b] bs
        rw [List.length_singleton, List.singleton_append] at hjoin
        rw [hfirst, hjoin] at hbuf
        exact hbuf
      · rw [List.length_cons]
        show (bgPuts bs (bgPut r b)).bgIdx.toNat = _
        rw [hidx]
        omega

/-- The nine pieces are the request. -/
theorem httpBuildGet_eq (r : BuildGet) :
    ∃ s, s = bgPuts (getRequest (stringAt r.mem r.hostPtr r.hostLen.toNat)
        (stringAt r.mem r.pathPtr r.pathLen.toNat)) { r with bgIdx := 0 } ∧
      httpBuildGet r = { s with reqLen := (0, s.bgIdx) } := by
  refine ⟨_, rfl, ?_⟩
  have hframe : ∀ (bs : List UInt8) (t : BuildGet), (bgPuts bs t).hostPtr = t.hostPtr ∧
      (bgPuts bs t).hostLen = t.hostLen ∧ (bgPuts bs t).pathPtr = t.pathPtr ∧
      (bgPuts bs t).pathLen = t.pathLen ∧ (bgPuts bs t).mem = t.mem := by
    intro bs t
    obtain ⟨buf, idx, h⟩ := bgPuts_frame bs t
    rw [h]
    exact ⟨rfl, rfl, rfl, rfl, rfl⟩
  have hverb : ∀ t, bgCopy httpGetVerb 4 t = bgPuts (textBytes "GET ") t := bgCopy_eq rfl
  have hversion : ∀ t, bgCopy httpVersion 11 t = bgPuts (textBytes " HTTP/1.1\r\n") t := bgCopy_eq rfl
  have hhost : ∀ t, bgCopy httpHostHdr 6 t = bgPuts (textBytes "Host: ") t := bgCopy_eq rfl
  have hcrlf : ∀ t, bgCopy httpCrlf 2 t = bgPuts (textBytes "\r\n") t := bgCopy_eq rfl
  have hua : ∀ t, bgCopy httpUaHdr 27 t = bgPuts (textBytes "User-Agent: c64-https/0.1\r\n") t :=
    bgCopy_eq rfl
  have hconn : ∀ t, bgCopy httpConnHdr 19 t = bgPuts (textBytes "Connection: close\r\n") t :=
    bgCopy_eq rfl
  unfold httpBuildGet getRequest
  dsimp only
  simp only [hverb, hversion, hhost, hcrlf, hua, hconn, bgCopyIndirect_eq]
  -- the pieces do not change where the host and the path are
  simp only [(hframe _ _).1, (hframe _ _).2.1, (hframe _ _).2.2.1, (hframe _ _).2.2.2.1,
    (hframe _ _).2.2.2.2, bgPuts_append]

end Puts

/-- For every host and path that the callers admit, the buffer holds the whole request and beyond it
what it held, and the length is that of the request. -/
theorem httpBuildGet_request (r : BuildGet) (hhost : r.hostLen ≤ 63) (hpath : r.pathLen ≤ 100) :
    let req := getRequest (stringAt r.mem r.hostPtr r.hostLen.toNat)
      (stringAt r.mem r.pathPtr r.pathLen.toNat)
    let r' := httpBuildGet r
    bytesAt r'.reqBuf 0 req.length = req ∧ (∀ i, req.length ≤ i → r'.reqBuf i = r.reqBuf i) ∧
      word r'.reqLen.1 r'.reqLen.2 = req.length ∧ req.length < 256 := by
  intro req r'
  have h63 : (63 : UInt8).toNat = 63 := rfl
  have h100 : (100 : UInt8).toNat = 100 := rfl
  have hzero : (0 : UInt8).toNat = 0 := rfl
  rw [UInt8.le_iff_toNat_le, h63] at hhost
  rw [UInt8.le_iff_toNat_le, h100] at hpath
  have hlength : req.length = r.pathLen.toNat + r.hostLen.toNat + 71 := by
    show (getRequest _ _).length = _
    rw [length_getRequest, length_stringAt, length_stringAt]
  have hfits : req.length < 256 := by
    omega
  obtain ⟨s, hs, heq⟩ := httpBuildGet_eq r
  obtain ⟨hbuf, hidx⟩ := bgPuts_store req { r with bgIdx := 0 } (by dsimp only; omega)
  dsimp only at hbuf hidx
  rw [hzero] at hbuf hidx
  have hreq : r'.reqBuf = store r.reqBuf 0 req := by
    show (httpBuildGet r).reqBuf = _
    rw [heq, hs, ← hbuf]
  have hlen : r'.reqLen = (0, s.bgIdx) := by
    show (httpBuildGet r).reqLen = _
    rw [heq]
  have hcount : s.bgIdx.toNat = req.length := by
    rw [hs, hidx, Nat.zero_add]
  refine ⟨?_, ?_, ?_, hfits⟩
  · rw [hreq, bytesAt_store_self]
  · intro i hi
    rw [hreq, store_of_outside _ (Or.inr (by omega))]
  · rw [hlen]
    unfold word
    dsimp only
    rw [hcount, hzero]
    omega

/-- `GET / HTTP/1.1` to `a.b`. -/
theorem httpBuildGet_request_short :
    let r : BuildGet :=
      { hostPtr := 0, hostLen := 3, pathPtr := 3, pathLen := 1, reqBuf := fun _ => 0
        reqLen := (0, 0), bgIdx := 0, mem := ofList [0x61, 0x2e, 0x62, 0x2f] fun _ => 0 }
    let req := getRequest (stringAt r.mem r.hostPtr r.hostLen.toNat)
      (stringAt r.mem r.pathPtr r.pathLen.toNat)
    let r' := httpBuildGet r
    bytesAt r'.reqBuf 0 req.length = req ∧ (∀ i, req.length ≤ i → r'.reqBuf i = r.reqBuf i) ∧
      word r'.reqLen.1 r'.reqLen.2 = req.length ∧ req.length < 256 :=
  httpBuildGet_request _ (by decide) (by decide)

end Http
end C64Https
