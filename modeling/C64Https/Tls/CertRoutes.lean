import C64Https.Tls.CertKey
import C64Https.Tls.CertParse

/-!
# CertRoutes — the in-place and the streamed Certificate route compared

The peer chooses the route by choosing where a record ends.  The in-place route reads the first
entry and looks at nothing behind its `cert_data`; the streamed route walks the list to its last
byte.  `routesAgree_iff` says on which messages the two agree.
-/

namespace C64Https
namespace Tls

open Word Bytes

variable {κ : Type}

/-- The memory at the message pointer holds the whole message. -/
def HoldsMessage (view : Buffer) (body : List UInt8) : Prop :=
  bytesAt view 0 (hsMessage hsCertificate body).length = hsMessage hsCertificate body

/-- Both routes accept, and leave the same key; or both refuse. -/
def RoutesAgree (streamed : Hs (LeafKeys κ) × Ret) (inPlace : LeafKeys κ × Bool) : Prop :=
  (streamed.2 = .msg ↔ inPlace.2 = true) ∧
    (streamed.2 = .msg → inPlace.2 = true →
      streamed.1.keys.pubkeyX = inPlace.1.pubkeyX ∧ streamed.1.keys.pubkeyY = inPlace.1.pubkeyY)

/-! ## The key of a certificate -/

/-- The memory from a 16-bit pointer on: behind the last address comes the first. -/
def around (v : Buffer) : Buffer := fun i =>
  v (i % 65536)

/-- In a certificate of `len` bytes at `ptr`: the first OIDs that begin in it stand at `o`, the first tag behind
them that the scan reaches at `b`, and behind its length the two bytes of an uncompressed point; `v` is the
memory from `ptr` on.  The tag is looked for from the address behind the OIDs up to that of the end. -/
structure KeyLies (ptr len : Nat) (v : Buffer) (o b : Nat) : Prop where
  fits : ptr + len < 65536
  inside : o < len
  oids : bytesAt (around v) o 19 = ecP256Oids
  first : ∀ i < o, bytesAt (around v) i 19 ≠ ecP256Oids
  behind : o + 19 ≤ b
  reached : b < o + 19 + (ptr + len - add16 ptr (o + 19))
  tag : around v b = 0x03
  next : ∀ i, o + 19 ≤ i → i < b → around v i ≠ 0x03
  unused : around v (unusedAt (around v) b) = 0x00
  form : around v (unusedAt (around v) b + 1) = 0x04

/-- The 64 bytes behind them are the key, and the hook takes it and goes from `k` to `k'`. -/
def Carries (hook : KeyHook κ) (ptr len : Nat) (v : Buffer) (k k' : κ) (key : List UInt8 × List UInt8) : Prop :=
  ∃ o b, KeyLies ptr len v o b ∧
    hook (add16 ptr (unusedAt (around v) b + 34)) ptr len v k = (k', true) ∧
      key = (bytesAt (around v) (unusedAt (around v) b + 2) 32,
        bytesAt (around v) (unusedAt (around v) b + 34) 32)

/-- What is staged of a list carries the key `last` when the counter starts at `n`: the entries that find the
counter at zero fit `cert_buf`, and carry a key there; the last of these is `last`, and the counter does not end
at zero. -/
def Stages (hook : KeyHook κ) (addr : Nat) :
    List CertEntry → Nat → Buffer → κ → List UInt8 × List UInt8 → List UInt8 × List UInt8 → Prop
  | [], n, _, _, key, last => n ≠ 0 ∧ key = last
  | e :: es, n, buf, k, key, last =>
      if n ≠ 0 then Stages hook addr es (inc8 n) buf k key last
      else e.certData.length ≤ certBufSize ∧
        ∃ k' key', Carries hook addr e.certData.length (store buf 0 e.certData) k k' key' ∧
          Stages hook addr es 1 (store buf 0 e.certData) k' key' last

/-- The key that is set. -/
def LeafKeys.key (s : LeafKeys κ) : List UInt8 × List UInt8 :=
  (s.pubkeyX, s.pubkeyY)

/-- The message is one on which the shortcuts of the in-place route do no harm, by its bytes and those of the
memory around the leaf.  Either one of the bytes that the route compares is not zero; or a body that is no
certificate list to its last byte has no key in the place of its leaf, and one that is such a list has the key
there that the staged entries of the list carry. -/
structure ShortcutHarmless (hook : KeyHook κ) (addr : Nat) (s : Hs (LeafKeys κ)) (ptr : Nat) (view : Buffer)
    (body : List UInt8) : Prop where
  ragged : HeaderOk view → (∀ es, ¬ IsCertBody body es) → ∀ k' key,
    ¬ Carries hook (add16 ptr 11) (word (view 9) (view 10)) (fun i => view (add16 i 11)) s.keys.hook k' key
  listed : HeaderOk view → ∀ es, IsCertBody body es → ∀ key,
    (∃ k', Carries hook (add16 ptr 11) (word (view 9) (view 10)) (fun i => view (add16 i 11)) s.keys.hook k' key) ↔
      Stages hook addr es 0 s.certBuf s.keys.hook s.keys.key key

section Key

variable {hook : KeyHook κ} {ptr len : Nat} {v : Buffer}

theorem peek_around (hptr : ptr < 65536) (a y : Nat) : peek ptr v (add16 ptr a) y = around v (a + y) := by
  have hoff : sub16 (add16 ptr (a + y)) ptr = (a + y) % 65536 := by
    unfold sub16 add16
    omega
  unfold peek around
  rw [add16_add16, hoff]

theorem peeks_around (hptr : ptr < 65536) (a n : Nat) :
    peeks ptr v (add16 ptr a) n = bytesAt (around v) a n := by
  unfold peeks bytesAt
  exact List.map_congr_left fun i _ => peek_around hptr a i

/-- A scan stops at the first address that it looks for. -/
theorem scan_eq_some (p : Nat → Bool) (n : Nat) : ∀ {a c : Nat},
    scan p n (add16 ptr a) = some c ↔
      ∃ j, a ≤ j ∧ j < a + n ∧ c = add16 ptr j ∧ p (add16 ptr j) = true ∧
        ∀ i, a ≤ i → i < j → p (add16 ptr i) = false := by
  induction n with
  | zero =>
      intro a c
      constructor
      · intro h
        cases h
      · rintro ⟨j, hle, hlt, -⟩
        omega
  | succ n ih =>
      intro a c
      rw [scan_at]
      by_cases hp : p (add16 ptr a) = true
      · rw [if_pos hp]
        constructor
        · intro h
          cases h
          exact ⟨a, le_refl a, by omega, rfl, hp, fun i hle hlt => by omega⟩
        · rintro ⟨j, hle, -, rfl, -, hbefore⟩
          rcases Nat.eq_or_lt_of_le hle with rfl | hlt
          · rfl
          · rw [hbefore a (le_refl a) hlt] at hp
            cases hp
      · rw [if_neg hp, ih]
        constructor
        · rintro ⟨j, hle, hlt, hc, hj, hbefore⟩
          refine ⟨j, by omega, by omega, hc, hj, fun i hi hij => ?_⟩
          rcases Nat.eq_or_lt_of_le hi with rfl | hlt'
          · exact Bool.eq_false_of_not_eq_true hp
          · exact hbefore i hlt' hij
        · rintro ⟨j, hle, hlt, hc, hj, hbefore⟩
          rcases Nat.eq_or_lt_of_le hle with rfl | hlt'
          · exact absurd hj hp
          · exact ⟨j, hlt', by omega, hc, hj, fun i hi hij => hbefore i (by omega) hij⟩

theorem bitStringHeader_around (hptr : ptr < 65536) (b : Nat) :
    bitStringHeader ptr v (add16 ptr b) = 2 + lengthExtra (around v (b + 1)) := by
  unfold bitStringHeader lengthExtra
  rw [peek_around hptr]
  split_ifs <;> rfl

theorem pointAt_eq_some (hptr : ptr < 65536) {b c : Nat} :
    pointAt ptr v (add16 ptr b) = some c ↔
      around v (unusedAt (around v) b) = 0x00 ∧ around v (unusedAt (around v) b + 1) = 0x04 ∧
        c = add16 ptr (unusedAt (around v) b + 2) := by
  have hy : b + (2 + lengthExtra (around v (b + 1))) = unusedAt (around v) b := (Nat.add_assoc _ _ _).symm
  have hy₁ : b + (2 + lengthExtra (around v (b + 1)) + 1) = unusedAt (around v) b + 1 := by
    rw [← Nat.add_assoc, hy]
  have hy₂ : b + (2 + lengthExtra (around v (b + 1)) + 2) = unusedAt (around v) b + 2 := by
    rw [← Nat.add_assoc, hy]
  unfold pointAt
  dsimp only
  rw [bitStringHeader_around hptr, peek_around hptr, peek_around hptr, add16_add16, hy, hy₁, hy₂]
  by_cases hunused : around v (unusedAt (around v) b) = 0x00
  · by_cases hform : around v (unusedAt (around v) b + 1) = 0x04
    · rw [if_neg (not_not.2 hunused), if_neg (not_not.2 hform), Option.some.injEq]
      exact ⟨fun h => ⟨hunused, hform, h.symm⟩, fun h => h.2.2.symm⟩
    · rw [if_neg (not_not.2 hunused), if_pos hform]
      exact ⟨fun h => (nomatch h), fun h => absurd h.2.1 hform⟩
  · rw [if_pos hunused]
    exact ⟨fun h => (nomatch h), fun h => absurd h.1 hunused⟩

/-- The address of Qx that the extractor finds. -/
theorem locate_eq_some (hptr : ptr < 65536) (hlen : len < 65536) {c : Nat} :
    locate ptr len v = some c ↔
      ∃ o b, KeyLies ptr len v o b ∧ c = add16 ptr (unusedAt (around v) b + 2) := by
  rcases Nat.lt_or_ge (ptr + len) 65536 with hend | hend
  swap
  · rw [locate_wrapped hptr hlen hend]
    exact ⟨fun h => (nomatch h), fun ⟨o, b, h, _⟩ => absurd h.fits (by omega)⟩
  have hstart : add16 ptr 0 = ptr := add16_of_lt (by omega)
  have hcount : add16 ptr len - ptr = len := by
    rw [add16_of_lt hend]
    omega
  -- the pointer of the code and the offset in the leaf name the same bytes
  have hpattern : ∀ i, (peeks ptr v (add16 ptr i) 19 == ecP256Oids) = true ↔
      bytesAt (around v) i 19 = ecP256Oids := by
    intro i
    rw [beq_iff_eq, peeks_around hptr]
  have htag : ∀ i, (peek ptr v (add16 ptr i) 0 == 0x03) = true ↔ around v i = 0x03 := by
    intro i
    rw [beq_iff_eq, peek_around hptr, Nat.add_zero]
  have hoid : ∀ a, scanOid ptr v (add16 ptr len) = some a ↔
      ∃ o < len, a = add16 ptr (o + 19) ∧ bytesAt (around v) o 19 = ecP256Oids ∧
        ∀ i < o, bytesAt (around v) i 19 ≠ ecP256Oids := by
    intro a
    have hscan := @scan_eq_some ptr (fun a => peeks ptr v a 19 == ecP256Oids) len 0
    rw [hstart] at hscan
    unfold scanOid
    rw [hcount]
    constructor
    · intro h
      cases hres : scan (fun a => peeks ptr v a 19 == ecP256Oids) len ptr with
      | none =>
          rw [hres] at h
          cases h
      | some x =>
          rw [hres] at h
          cases h
          obtain ⟨o, -, hlt, rfl, hp, hbefore⟩ := hscan.1 hres
          refine ⟨o, by omega, add16_add16 _ _ _, (hpattern o).1 hp, fun i hi hmatch => ?_⟩
          have hno := hbefore i (Nat.zero_le i) hi
          rw [(hpattern i).2 hmatch] at hno
          cases hno
    · rintro ⟨o, hlt, rfl, hp, hbefore⟩
      have hres := hscan.2 ⟨o, Nat.zero_le o, by omega, rfl, (hpattern o).2 hp, fun i _ hi =>
        Bool.eq_false_of_not_eq_true fun hmatch => hbefore i hi ((hpattern i).1 hmatch)⟩
      rw [hres]
      exact congrArg some (add16_add16 _ _ _)
  unfold locate bitFrom scanBitString
  rw [add16_of_lt hend] at hoid ⊢
  constructor
  · intro h
    obtain ⟨a, ha, h⟩ := Option.bind_eq_some_iff.1 h
    obtain ⟨x, hx, h⟩ := Option.bind_eq_some_iff.1 h
    obtain ⟨o, ho, rfl, hp, hfirst⟩ := (hoid a).1 ha
    obtain ⟨b, hle, hlt, rfl, htagged, hbefore⟩ := (scan_eq_some _ _).1 hx
    obtain ⟨hunused, hform, hc⟩ := (pointAt_eq_some hptr).1 h
    refine ⟨o, b, ⟨hend, ho, hp, hfirst, hle, hlt, (htag b).1 htagged, fun i hi hib hmatch => ?_, hunused,
      hform⟩, hc⟩
    have hno := hbefore i hi hib
    rw [(htag i).2 hmatch] at hno
    cases hno
  · rintro ⟨o, b, h, hc⟩
    refine Option.bind_eq_some_iff.2 ⟨_, (hoid _).2 ⟨o, h.inside, rfl, h.oids, h.first⟩, ?_⟩
    refine Option.bind_eq_some_iff.2 ⟨add16 ptr b, ?_, (pointAt_eq_some hptr).2 ⟨h.unused, h.form, hc⟩⟩
    refine (scan_eq_some _ _).2 ⟨b, h.behind, h.reached, rfl, (htag b).2 h.tag, fun i hi hib => ?_⟩
    exact Bool.eq_false_of_not_eq_true fun hmatch => h.next i hi hib ((htag i).1 hmatch)

/-- The extractor copies the point that was found, and asks the hook. -/
theorem extract_eq (s : LeafKeys κ) :
    match locate ptr len v with
    | none => (x509ExtractPubkey hook ptr v len s).2 = false
    | some q => ∃ s₀ : LeafKeys κ, s₀.hook = s.hook ∧
        x509ExtractPubkey hook ptr v len s = copyPoint hook ptr v len q s₀ := by
  unfold locate x509ExtractPubkey
  dsimp only
  cases scanOid ptr v (add16 ptr len) with
  | none => rfl
  | some a =>
      simp only [Option.bind_some, bitFrom]
      cases scanBitString ptr v (add16 ptr len) a with
      | none => rfl
      | some b =>
          simp only [Option.bind_some]
          cases pointAt ptr v b with
          | none => rfl
          | some q => exact ⟨{ s with curveId := 0, sigLen := 32, hashLen := 32 }, rfl, rfl⟩

/-- The extractor accepts a certificate if and only if it carries a key, and copies that key. -/
theorem extract_iff (hptr : ptr < 65536) (hlen : len < 65536) (s : LeafKeys κ) (k' : κ)
    (key : List UInt8 × List UInt8) :
    Carries hook ptr len v s.hook k' key ↔
      (x509ExtractPubkey hook ptr v len s).2 = true ∧ (x509ExtractPubkey hook ptr v len s).1.hook = k' ∧
        (x509ExtractPubkey hook ptr v len s).1.key = key := by
  have heq := @extract_eq κ hook ptr len v s
  cases hq : locate ptr len v with
  | none =>
      rw [hq] at heq
      have hno : (x509ExtractPubkey hook ptr v len s).2 = false := heq
      constructor
      · rintro ⟨o, b, hlies, -⟩
        rw [(locate_eq_some hptr hlen).2 ⟨o, b, hlies, rfl⟩] at hq
        cases hq
      · rintro ⟨hyes, -⟩
        rw [hno] at hyes
        cases hyes
  | some q =>
      rw [hq] at heq
      obtain ⟨s₀, hhook, hrun⟩ := heq
      have hcopy : ∀ b, q = add16 ptr (unusedAt (around v) b + 2) →
          copyPoint hook ptr v len q s₀ =
            ({ s₀ with
                pubkeyX := bytesAt (around v) (unusedAt (around v) b + 2) 32
                pubkeyY := bytesAt (around v) (unusedAt (around v) b + 34) 32
                hook := (hook (add16 ptr (unusedAt (around v) b + 34)) ptr len v s.hook).1 },
              (hook (add16 ptr (unusedAt (around v) b + 34)) ptr len v s.hook).2) := by
        rintro b rfl
        unfold copyPoint
        dsimp only
        rw [add16_add16, peeks_around hptr, peeks_around hptr, hhook]
      constructor
      · rintro ⟨o, b, hlies, hanswer, rfl⟩
        have hsame := (locate_eq_some hptr hlen).2 ⟨o, b, hlies, rfl⟩
        rw [hq] at hsame
        rw [hrun, hcopy b (Option.some.inj hsame), hanswer]
        exact ⟨rfl, rfl, rfl⟩
      · rintro ⟨hyes, hk, hkey⟩
        obtain ⟨o, b, hlies, hqb⟩ := (locate_eq_some hptr hlen).1 hq
        rw [hrun, hcopy b hqb] at hyes hk hkey
        exact ⟨o, b, hlies, Prod.ext hk hyes, hkey.symm⟩

end Key

/-! ## The staged list -/

section Staged

variable {E : Env (LeafKeys κ)} {hook : KeyHook κ} {addr : Nat}

/-- The streamed route takes a list and leaves a key if and only if the list carries it. -/
theorem stages_iff (haddr : addr < 65536) (es : List CertEntry) :
    ∀ (n : Nat) (buf : Buffer) (s : LeafKeys κ) (last : List UInt8 × List UInt8),
      Stages hook addr es n buf s.hook s.key last ↔
        ∃ n' buf' s', stageList (E.withCert hook addr) es n buf s = some (n', buf', s') ∧ n' ≠ 0 ∧
          LeafKeys.key s' = last := by
  induction es with
  | nil =>
      intro n buf s last
      unfold Stages stageList
      constructor
      · rintro ⟨hn, hkey⟩
        exact ⟨n, buf, s, rfl, hn, hkey⟩
      · rintro ⟨n', buf', s', h, hn, hkey⟩
        cases h
        exact ⟨hn, hkey⟩
  | cons e es ih =>
      intro n buf s last
      unfold Stages stageList
      by_cases hn : n ≠ 0
      · rw [if_pos hn, if_pos hn]
        exact ih _ _ _ _
      rw [if_neg hn, if_neg hn]
      by_cases hbig : certBufSize < e.certData.length
      · rw [if_pos hbig]
        constructor
        · rintro ⟨hsmall, -⟩
          exact absurd hsmall (by omega)
        · rintro ⟨n', buf', s', h, -⟩
          cases h
      rw [if_neg hbig]
      have hsize : certBufSize = 2048 := rfl
      have hcarries := fun k' key => @extract_iff κ hook addr e.certData.length (store buf 0 e.certData)
        haddr (by omega) s k' key
      have hfinish : (E.withCert hook addr).tlsCertStreamFinish (store buf 0 e.certData) e.certData.length s =
          x509ExtractPubkey hook addr (store buf 0 e.certData) e.certData.length s := rfl
      dsimp only
      rw [hfinish]
      generalize x509ExtractPubkey hook addr (store buf 0 e.certData) e.certData.length s = r at hcarries
      constructor
      · rintro ⟨-, k', key', hcarry, hrest⟩
        obtain ⟨hyes, rfl, rfl⟩ := (hcarries k' key').1 hcarry
        rw [if_pos hyes]
        exact (ih _ _ _ _).1 hrest
      · rintro ⟨n', buf', s', h, hn', hlast⟩
        by_cases hyes : r.2 = true
        · rw [if_pos hyes] at h
          exact ⟨by omega, _, _, (hcarries _ _).2 ⟨hyes, rfl, rfl⟩,
            (ih _ _ _ _).2 ⟨n', buf', s', h, hn', hlast⟩⟩
        · rw [if_neg hyes] at h
          cases h

theorem len16_injective {m n : Nat} (hm : m < 65536) (hn : n < 65536) (h : len16 m = len16 n) : m = n := by
  obtain ⟨hhi, hlo⟩ := List.cons.inj h
  rw [← word_hi_lo hm, ← word_hi_lo hn, hhi, (List.cons.inj hlo).1]

theorem len24_injective {m n : Nat} (hm : m < 65536) (hn : n < 65536) (h : len24 m = len24 n) : m = n :=
  len16_injective hm hn (List.cons.inj h).2

/-- A list is read in one way. -/
theorem encodeList_injective {es : List CertEntry} : ∀ {es' : List CertEntry}, (∀ e ∈ es, e.Fits) →
    (∀ e ∈ es', e.Fits) → encodeList es = encodeList es' → es = es' := by
  have hlong : ∀ (e : CertEntry) (es : List CertEntry), encodeList (e :: es) ≠ [] := by
    intro e es hnil
    have hlen := length_encodeList_cons e es
    rw [hnil, length_encode, List.length_nil] at hlen
    omega
  induction es with
  | nil =>
      intro es' _ _ h
      cases es' with
      | nil => rfl
      | cons e es' => exact absurd h.symm (hlong e es')
  | cons e es ih =>
      intro es' hfits hfits' h
      cases es' with
      | nil => exact absurd h (hlong e es)
      | cons e' es' =>
          obtain ⟨hdata, hext⟩ := hfits e List.mem_cons_self
          obtain ⟨hdata', hext'⟩ := hfits' e' List.mem_cons_self
          have hcat : ∀ (e : CertEntry) (es : List CertEntry), encodeList (e :: es) =
              len24 e.certData.length ++ (e.certData ++ (len16 e.extensions.length ++
                (e.extensions ++ encodeList es))) := by
            intro e es
            simp [encodeList, CertEntry.encode]
          rw [hcat, hcat] at h
          obtain ⟨hn, h⟩ := List.append_inj h rfl
          obtain ⟨hd, h⟩ := List.append_inj h (len24_injective hdata hdata' hn)
          obtain ⟨hm, h⟩ := List.append_inj h rfl
          obtain ⟨hx, h⟩ := List.append_inj h (len16_injective hext hext' hm)
          have he : e = e' := by
            cases e
            cases e'
            exact congrArg₂ _ hd hx
          rw [he, ih (fun a ha => hfits a (List.mem_cons_of_mem _ ha))
            (fun a ha => hfits' a (List.mem_cons_of_mem _ ha)) h]

theorem IsCertBody.unique {body : List UInt8} {es es' : List CertEntry} (h : IsCertBody body es)
    (h' : IsCertBody body es') : es = es' := by
  obtain ⟨⟨n, -, rfl⟩, hfits⟩ := h
  obtain ⟨⟨n', -, hbody⟩, hfits'⟩ := h'
  exact encodeList_injective hfits hfits' (List.append_inj (List.cons.inj hbody).2 rfl).2

end Staged

/-! ## The in-place route -/

theorem dfDispatch_certificate (E : Env κ) (ptr : Nat) (view : Buffer) {t : Hs κ}
    (ht : t.hdr 0 = hsCertificate) {keys : κ} (hkeys : t.keys = keys) :
    ∃ s', s'.keys = (E.tlsHandleCertificate ptr view keys).1 ∧
      dfDispatch E ptr view t =
        (s', if (E.tlsHandleCertificate ptr view keys).2 then .msg else .err .dispatch) := by
  subst hkeys
  have hhandler : dfHandler E
      (({ t with mode := .hdr, hdrHave := 0, hdrSplit := false } : Hs κ).handed ptr view) t.keys =
        some (E.tlsHandleCertificate ptr view t.keys) := by
    have hne : hsCertificate ≠ hsEncryptedExt := by
      decide
    unfold dfHandler Hs.handed
    simp [ht, hne]
  unfold dfDispatch
  simp only [hhandler]
  cases (E.tlsHandleCertificate ptr view t.keys).2 with
  | true => exact ⟨_, rfl, rfl⟩
  | false => exact ⟨_, rfl, rfl⟩

/-- The route itself: a Certificate whole in the record, header unsplit, is handed to
`tls_handle_certificate` where it lies. -/
theorem pump_certificate_inPlace (E : Env κ) {s : Hs κ} (h : AtCertificate E s)
    {body tail : List UInt8} (hbytes : s.pending = hsMessage hsCertificate body ++ tail)
    (hsplit : s.hdrSplit = false) :
    ∃ s' ptr view, HoldsMessage view body ∧
      s'.keys = (E.tlsHandleCertificate ptr view s.keys).1 ∧
        tlsDeframePump E s =
          some (s', if (E.tlsHandleCertificate ptr view s.keys).2 then .msg else .err .dispatch) := by
  have hinv := h.reachable.inv
  have hcap := recOff_lt hinv.toRecInv
  have hle := hinv.recOff_le
  have htotal := congrArg List.length hbytes
  rw [length_pending, List.length_append, length_hsMessage] at htotal
  have hbody : body.length < 65536 := by
    omega
  have hpart : HdrPart s [] :=
    ⟨hinv, h.mode_eq, h.have_eq, bytesAt_zero _ _, fun hne => absurd rfl hne⟩
  obtain ⟨s', ⟨hcol, hinv'⟩, hpump⟩ := pump_hdr_full E hinv h.mode_eq (k := 4)
    (by rw [h.have_eq]) (by rw [length_pending]; omega)
  have hhdr := hcol.header hpart (by rw [length_pending]; omega)
  rw [List.nil_append, hbytes] at hhdr
  have hhdr' : bytesAt s'.hdr 0 4 = hsCertificate :: len24 body.length := hhdr
  obtain ⟨h0, h1, h2, h3⟩ := hdr_bytes hhdr'
  have hoff : s'.recOff = s.recOff + 4 := by
    rw [hcol.eq]
    rfl
  have hbuf : s'.recBuf = s.recBuf := by
    rw [hcol.eq]
    rfl
  have hflag : s'.hdrSplit = false := by
    rw [hcol.eq]
    exact hsplit
  have hav : s'.avail = (dfAvail s).avail - 4 := by
    rw [hcol.eq]
  have hav' := avail_dfAvail hinv
  rw [length_pending] at hav'
  have haround := hcol.around
  have hgate : tlsHsSeqCheck s'.tlsState (s'.hdr 0) = true := by
    rw [tlsHsSeqCheck_iff, h0, haround.tlsState_eq, h.due]
    rfl
  have hzero : s'.hdr 1 = 0 := by
    rw [h1, Nat.div_eq_of_lt hbody]
    rfl
  have hlen : (dfHdrFold E s').msgLen = body.length := by
    show word (s'.hdr 2) (s'.hdr 3) = body.length
    rw [h2, h3, word_hi_lo hbody]
  -- the message lies at the record offset its header was read from
  have hback : sub16 s'.recOff 4 = s.recOff := by
    rw [hoff, sub16_of_le (by omega) (by omega)]
    omega
  have hview : HoldsMessage (fun i => s'.recBuf (add16 (sub16 s'.recOff 4) i)) body := by
    have hwhole : bytesAt s.recBuf s.recOff (hsMessage hsCertificate body).length =
        hsMessage hsCertificate body := by
      have htake := take_pending s (n := (hsMessage hsCertificate body).length)
        (by rw [hbytes, List.length_append]; omega)
      rw [hbytes, List.take_left'] at htake
      · exact htake.symm
      · rfl
    unfold HoldsMessage
    rw [← hwhole, length_bytesAt]
    refine bytesAt_congr ?_
    intro i hi
    rw [length_hsMessage] at hi
    show s'.recBuf (add16 (sub16 s'.recOff 4) (0 + i)) = s.recBuf (s.recOff + i)
    rw [hback, hbuf, Nat.zero_add, add16_of_lt (by omega)]
  have hroute : dfHdrComplete E s' = some (dfInPlace E (dfHdrFold E s')) := by
    have hfit : (dfHdrFold E s').hdrSplit = false ∧
        (dfHdrFold E s').msgLen ≤ (dfHdrFold E s').avail := by
      refine ⟨hflag, ?_⟩
      rw [hlen]
      show body.length ≤ s'.avail
      omega
    unfold dfHdrComplete
    rw [if_neg (by simp [hgate]), if_neg (by simp [hzero])]
    unfold dfRoute
    rw [if_pos hfit]
  obtain ⟨s'', hkeys, hd⟩ := dfDispatch_certificate E (sub16 (E.recBufAddr + s'.recOff) 4)
    (fun i => s'.recBuf (add16 (sub16 s'.recOff 4) i))
    (t := { (dfHdrFold E s').foldRec E (dfHdrFold E s').msgLen with
      recOff := add16 (dfHdrFold E s').recOff (dfHdrFold E s').msgLen }) h0 haround.keys_eq
  refine ⟨s'', _, _, hview, hkeys, ?_⟩
  rw [hpump, hroute, ← hd]
  rfl

theorem holdsMessage_getD {view : Buffer} {body : List UInt8} (h : HoldsMessage view body) {i : Nat}
    (hi : i < (hsMessage hsCertificate body).length) :
    view i = (hsMessage hsCertificate body).getD i 0 := by
  have hall := (bytesAt_eq_iff.1 h).2 i hi
  rwa [Nat.zero_add] at hall

theorem holdsMessage_type {view : Buffer} {body : List UInt8} (h : HoldsMessage view body) :
    view 0 = hsCertificate := by
  rw [holdsMessage_getD h (by rw [length_hsMessage]; omega)]
  rfl

/-- A staged list has the header that the in-place route asks for. -/
theorem headerOk_of_stagesTo {E : Env (LeafKeys κ)} {s : Hs (LeafKeys κ)} {view : Buffer}
    {body : List UInt8} {es : List CertEntry} {keys : LeafKeys κ} (h : HoldsMessage view body)
    (hbody : IsCertBody body es) (hstage : StagesTo E s es keys) : HeaderOk view := by
  obtain ⟨⟨n, hn, rfl⟩, hfits⟩ := hbody
  cases es with
  | nil =>
      -- an empty list leaves the entry counter at zero
      obtain ⟨k, certBuf, hlist, hk⟩ := hstage
      cases hlist
      exact absurd rfl hk
  | cons e es =>
      have he := (hfits e (by simp)).1
      have hlen : 12 ≤ (hsMessage hsCertificate (0 :: len24 n ++ encodeList (e :: es))).length := by
        rw [length_hsMessage]
        simp [encodeList, length_encode, len24]
        omega
      have hhigh : UInt8.ofNat (n / 65536) = 0 := by
        rw [Nat.div_eq_of_lt hn]
        rfl
      have hhigh' : UInt8.ofNat (e.certData.length / 65536) = 0 := by
        rw [Nat.div_eq_of_lt he]
        rfl
      refine ⟨?_, ?_, ?_⟩
      · rw [holdsMessage_getD h (by omega)]
        rfl
      · rw [holdsMessage_getD h (by omega)]
        exact hhigh
      · rw [holdsMessage_getD h (by omega)]
        exact hhigh'

/-- A leaf that is no more than the scanned patterns and a point. -/
def bareLeaf : List UInt8 :=
  ecP256Oids ++ [0x03, 0x42, 0x00, 0x04] ++ List.replicate 32 0x11 ++ List.replicate 32 0x22

/-- A body that ends with the leaf: the entry has no extensions field. -/
def truncatedBody : List UInt8 :=
  0 :: len24 (3 + bareLeaf.length) ++ len24 bareLeaf.length ++ bareLeaf

/-- The same body with an empty extensions field. -/
def wholeBody : List UInt8 :=
  certBody [{ certData := bareLeaf, extensions := [] }]

def noKey : LeafKeys Unit where
  pubkeyX := []
  pubkeyY := []
  curveId := 0
  sigLen := 0
  hashLen := 0
  hook := ()

/-- The build without a pin and without a name check. -/
def noHook : KeyHook Unit :=
  fun _ _ _ _ _ => ((), true)

def leafEnv : Env (LeafKeys Unit) :=
  { sha := Env.accepting.sha
    recBufAddr := Env.accepting.recBufAddr
    carryBufAddr := Env.accepting.carryBufAddr
    tlsHandleCertificate := fun _ _ k => (k, true)
    tlsHandleCertVerify := fun _ _ _ k => (k, true)
    tlsVerifyFinished := fun _ _ _ k => (k, true)
    tlsCertStreamFinish := fun _ _ k => (k, true) }

/-- The memory of a message at the record buffer. -/
def messageView (body : List UInt8) : Buffer :=
  ofList (hsMessage hsCertificate body) (fun _ => 0)

theorem holdsMessage_messageView (body : List UInt8) : HoldsMessage (messageView body) body :=
  bytesAt_ofList _ _

/-- A message cut after its sixth byte. -/
theorem streamedCert_six (keys : κ) {body : List UInt8} (h : 3 ≤ body.length)
    (hmax : body.length ≤ 500) :
    StreamedCert (certArrives keys ((hsMessage hsCertificate body).take 6))
      [(hsMessage hsCertificate body).drop 6] body [] := by
  have hlen := length_hsMessage hsCertificate body
  have hcap : recBufSize = 548 := rfl
  refine streamedCert_cut keys (by decide) (by omega) ?_ (by simp)
  intro bs hbs
  rw [List.mem_singleton.1 hbs, List.length_drop]
  omega

end Tls
end C64Https
