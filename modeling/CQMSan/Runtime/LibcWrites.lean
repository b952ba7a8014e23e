import CQMSan.Runtime.Poisoning

/-!
# The libc write interceptors

An interceptor calls the real function and then unpoisons the bytes it takes the real function
to have stored. `LibcCall` is such a call with what the real function returned, and
`LibcCall.intercept` is what the interceptor does to the shadow; it reads the memory before the
call, the memory after it, or the result, as the source does.

The real functions are not part of the repository. `Stores` says which bytes each of them stores,
for every defined call and every result, as POSIX and glibc have it. The result compares the two
(`clearsExactly_iff`): three of the interceptors clear bytes that were not stored, on results
that they do not tell apart from success.
-/

namespace CQMSan

open ByteMemory

/-! ### String lengths -/

/-- The loop `while (i < maxlen && s[i]) i++` from `i` on; `k` units remain. -/
def scanChars (nul : ℕ → Bool) : ℕ → ℕ → ℕ
  | 0, i => i
  | k + 1, i => if nul i then i else scanChars nul k (i + 1)

/-- The character at `s[i]` is zero. -/
def isNul (m : Mem) (s i : ℕ) : Bool := m (s + i) = 0#8

/-- The wide character at `s[i]` is zero. -/
def isWideNul (m : Mem) (s i : ℕ) : Bool :=
  m (s + 4 * i) = 0#8 ∧ m (s + 4 * i + 1) = 0#8 ∧ m (s + 4 * i + 2) = 0#8 ∧
    m (s + 4 * i + 3) = 0#8

/-- `internal_strnlen`. -/
def internalStrnlen (m : Mem) (s maxlen : Uptr) : Uptr :=
  BitVec.ofNat 64 (scanChars (isNul m s.toNat) maxlen.toNat 0)

/-- `internal_strlen`. The loop of a string ends before the address space does. -/
def internalStrlen (m : Mem) (s : Uptr) : Uptr :=
  BitVec.ofNat 64 (scanChars (isNul m s.toNat) (2 ^ 64) 0)

/-- `internal_wcslen`. -/
def internalWcslen (m : Mem) (s : Uptr) : Uptr :=
  BitVec.ofNat 64 (scanChars (isWideNul m s.toNat) (2 ^ 64) 0)

/-! ### The interceptors -/

/-- A call of an intercepted function with its result, where the interceptor reads it. -/
inductive LibcCall
  | strcpy (dest src : Uptr)
  | strncpy (dest src n : Uptr)
  | stpcpy (dest src : Uptr)
  | stpncpy (dest src n : Uptr)
  | strdup (src res : Uptr)
  /-- `__strdup`. -/
  | uStrdup (src res : Uptr)
  | strcat (dest src : Uptr)
  | strncat (dest src n : Uptr)
  | memccpy (dest src : Uptr) (c : BitVec 32) (n res : Uptr)
  | wcscpy (dest src : Uptr)
  | wcsncpy (dest src n : Uptr)
  | wmemcpy (dest src n : Uptr)
  | wmempcpy (dest src n : Uptr)
  | wmemset (s : Uptr) (c : BitVec 32) (n : Uptr)
  | wmemmove (dest src n : Uptr)
  | mbtowc (dest src n : Uptr) (res : ℤ)
  | mbrtowc (dest src n ps res : Uptr)
  | gethostname (name len : Uptr) (res : ℤ) (errno : ℕ)

/-- `sizeof(wchar_t)`. -/
def sizeofWchar : Uptr := 4#64

/-- `errno_ENAMETOOLONG`. -/
def errnoENAMETOOLONG : ℕ := 36

section Interceptors

variable (t : Uptr) (before after sh : Mem)

/-- `strdup` and `__strdup` after the call. -/
def interceptStrdup (src res : Uptr) : Mem :=
  let n := internalStrlen before src
  cqmsanUnpoison t sh res (n + 1#64)

/-- `memccpy` after the call; `none` is a failed `CHECK`. -/
def interceptMemccpy (dest n res : Uptr) : Option Mem :=
  if res = 0#64 ∨ (dest ≤ res ∧ res ≤ dest + n) then
    let sz := if res ≠ 0#64 then res - dest else n
    some (cqmsanUnpoison t sh dest sz)
  else none

/-- `gethostname` after the call. -/
def interceptGethostname (name len : Uptr) (res : ℤ) (errno : ℕ) : Mem :=
  if res = 0 ∨ (res = -1 ∧ errno = errnoENAMETOOLONG) then
    let realLen := internalStrnlen after name len
    let realLen := if realLen < len then realLen + 1#64 else realLen
    cqmsanUnpoison t sh name realLen
  else sh

/-- The shadow after the interceptor; `none` is a failed `CHECK`. A report of a poisoned argument
writes no shadow and is left out. -/
def LibcCall.intercept : LibcCall → Option Mem
  | .strcpy dest src => some (cqmsanUnpoison t sh dest (internalStrlen before src + 1#64))
  | .strncpy dest _ n => some (cqmsanUnpoison t sh dest n)
  | .stpcpy dest src => some (cqmsanUnpoison t sh dest (internalStrlen before src + 1#64))
  | .stpncpy dest _ n => some (cqmsanUnpoison t sh dest n)
  | .strdup src res => some (interceptStrdup t before sh src res)
  | .uStrdup src res => some (interceptStrdup t before sh src res)
  | .strcat dest src =>
    some (cqmsanUnpoison t sh (dest + internalStrlen before dest)
      (internalStrlen before src + 1#64))
  | .strncat dest src n =>
    some (cqmsanUnpoison t sh (dest + internalStrlen before dest)
      (internalStrnlen before src n + 1#64))
  | .memccpy dest _ _ n res => interceptMemccpy t sh dest n res
  -- the length of `src` is taken after the call
  | .wcscpy dest src =>
    some (cqmsanUnpoison t sh dest (sizeofWchar * (internalWcslen after src + 1#64)))
  -- `copy_size` is computed and not used
  | .wcsncpy dest _ n => some (cqmsanUnpoison t sh dest (n * sizeofWchar))
  | .wmemcpy dest _ n => some (cqmsanUnpoison t sh dest (n * sizeofWchar))
  | .wmempcpy dest _ n => some (cqmsanUnpoison t sh dest (n * sizeofWchar))
  | .wmemset s _ n =>
    if memIsApp s.toNat then some (cqmsanUnpoison t sh s (n * sizeofWchar)) else none
  | .wmemmove dest _ n => some (cqmsanUnpoison t sh dest (n * sizeofWchar))
  | .mbtowc dest _ _ res =>
    some (if res ≠ -1 ∧ dest ≠ 0#64 then cqmsanUnpoison t sh dest sizeofWchar else sh)
  | .mbrtowc dest _ _ _ res =>
    some (if res ≠ BitVec.allOnes 64 ∧ dest ≠ 0#64 then cqmsanUnpoison t sh dest sizeofWchar
      else sh)
  | .gethostname name len res errno =>
    some (interceptGethostname t after sh name len res errno)

end Interceptors

/-! ### The real functions -/

/-- A string of `k` characters in application memory. -/
structure AppString (m : Mem) (s : ℕ) (k : ℕ) : Prop where
  app : AppRange s (k + 1)
  chars : ∀ i < k, isNul m s i = false
  nul : isNul m s k = true

/-- A wide string of `k` characters in application memory. -/
structure AppWideString (m : Mem) (s : ℕ) (k : ℕ) : Prop where
  app : AppRange s (4 * (k + 1))
  chars : ∀ i < k, isWideNul m s i = false
  nul : isWideNul m s k = true

/-- `Stores before after c d n`: in the call `c`, which is defined and returned as `c` says, the
real function stores the bytes `[d, d + n)` and no others. -/
inductive Stores (before after : Mem) : LibcCall → ℕ → ℕ → Prop
  | strcpy {dest src : Uptr} {k : ℕ} (hs : AppString before src.toNat k) :
      Stores before after (.strcpy dest src) dest.toNat (k + 1)
  /-- `strncpy` pads with zeros to `n`. -/
  | strncpy {dest src n : Uptr} : Stores before after (.strncpy dest src n) dest.toNat n.toNat
  | stpcpy {dest src : Uptr} {k : ℕ} (hs : AppString before src.toNat k) :
      Stores before after (.stpcpy dest src) dest.toNat (k + 1)
  | stpncpy {dest src n : Uptr} : Stores before after (.stpncpy dest src n) dest.toNat n.toNat
  | strdup {src res : Uptr} {k : ℕ} (hs : AppString before src.toNat k) (hres : res ≠ 0#64) :
      Stores before after (.strdup src res) res.toNat (k + 1)
  /-- No memory: null is returned. -/
  | strdupNull {src : Uptr} {k : ℕ} (hs : AppString before src.toNat k) :
      Stores before after (.strdup src 0#64) 0 0
  | uStrdup {src res : Uptr} {k : ℕ} (hs : AppString before src.toNat k) (hres : res ≠ 0#64) :
      Stores before after (.uStrdup src res) res.toNat (k + 1)
  | uStrdupNull {src : Uptr} {k : ℕ} (hs : AppString before src.toNat k) :
      Stores before after (.uStrdup src 0#64) 0 0
  | strcat {dest src : Uptr} {j k : ℕ} (hd : AppString before dest.toNat j)
      (hs : AppString before src.toNat k) :
      Stores before after (.strcat dest src) (dest.toNat + j) (k + 1)
  /-- At most `n` characters are appended, and a terminator. -/
  | strncat {dest src n : Uptr} {j k : ℕ} (hd : AppString before dest.toNat j)
      (hchars : ∀ i < k, isNul before src.toNat i = false)
      (hk : k = n.toNat ∨ k < n.toNat ∧ isNul before src.toNat k = true) :
      Stores before after (.strncat dest src n) (dest.toNat + j) (k + 1)
  /-- `c` is found at `k`. The end of the destination is an address. -/
  | memccpy {dest src n res : Uptr} {c : BitVec 32} {k : ℕ} (hk : k < n.toNat)
      (hend : dest.toNat + n.toNat < 2 ^ 64)
      (hbefore : ∀ i < k, before (src.toNat + i) ≠ c.truncate 8)
      (hc : before (src.toNat + k) = c.truncate 8) (hres : res.toNat = dest.toNat + (k + 1)) :
      Stores before after (.memccpy dest src c n res) dest.toNat (k + 1)
  /-- `c` is not found. -/
  | memccpyNull {dest src n : Uptr} {c : BitVec 32}
      (hbefore : ∀ i < n.toNat, before (src.toNat + i) ≠ c.truncate 8) :
      Stores before after (.memccpy dest src c n 0#64) dest.toNat n.toNat
  /-- The strings do not overlap. -/
  | wcscpy {dest src : Uptr} {k : ℕ} (hs : AppWideString before src.toNat k)
      (hap : Apart dest.toNat (4 * (k + 1)) src.toNat (4 * (k + 1))) :
      Stores before after (.wcscpy dest src) dest.toNat (4 * (k + 1))
  | wcsncpy {dest src n : Uptr} :
      Stores before after (.wcsncpy dest src n) dest.toNat (4 * n.toNat)
  | wmemcpy {dest src n : Uptr} :
      Stores before after (.wmemcpy dest src n) dest.toNat (4 * n.toNat)
  | wmempcpy {dest src n : Uptr} :
      Stores before after (.wmempcpy dest src n) dest.toNat (4 * n.toNat)
  | wmemset {s n : Uptr} {c : BitVec 32} :
      Stores before after (.wmemset s c n) s.toNat (4 * n.toNat)
  | wmemmove {dest src n : Uptr} :
      Stores before after (.wmemmove dest src n) dest.toNat (4 * n.toNat)
  /-- A character was converted. -/
  | mbtowc {dest src n : Uptr} {res : ℤ} (hdest : dest ≠ 0#64) (hsrc : src ≠ 0#64)
      (hres : 0 ≤ res) : Stores before after (.mbtowc dest src n res) dest.toNat 4
  /-- There is no destination, the call asks for the shift state, or no character was converted. -/
  | mbtowcNone {dest src n : Uptr} {res : ℤ} (h : dest = 0#64 ∨ src = 0#64 ∨ res = -1) :
      Stores before after (.mbtowc dest src n res) 0 0
  /-- A character was completed. -/
  | mbrtowc {dest src n ps res : Uptr} (hdest : dest ≠ 0#64) (hsrc : src ≠ 0#64)
      (hres : res ≤ n) (hinvalid : res ≠ BitVec.allOnes 64) (hincomplete : res ≠ -2#64) :
      Stores before after (.mbrtowc dest src n ps res) dest.toNat 4
  /-- There is no destination, the call resets the state, or the character is invalid or
  incomplete. -/
  | mbrtowcNone {dest src n ps res : Uptr}
      (h : dest = 0#64 ∨ src = 0#64 ∨ res = BitVec.allOnes 64 ∨ res = -2#64) :
      Stores before after (.mbrtowc dest src n ps res) 0 0
  /-- The name fits with its terminator. -/
  | gethostname {name len : Uptr} {errno k : ℕ} (hk : k < len.toNat)
      (hchars : ∀ i < k, isNul after name.toNat i = false)
      (hnul : isNul after name.toNat k = true) :
      Stores before after (.gethostname name len 0 errno) name.toNat (k + 1)
  /-- The name is truncated to `len` characters. -/
  | gethostnameLong {name len : Uptr}
      (hchars : ∀ i < len.toNat, isNul after name.toNat i = false) :
      Stores before after (.gethostname name len (-1) errnoENAMETOOLONG) name.toNat len.toNat
  | gethostnameError {name len : Uptr} {errno : ℕ} (herrno : errno ≠ errnoENAMETOOLONG) :
      Stores before after (.gethostname name len (-1) errno) 0 0

/-! ### The comparison -/

/-- The interceptor returns, and the application bytes whose shadow it has set to clean are those
of `[d, d + n)`. -/
def ClearsExactly (t : Uptr) (before after : Mem) (c : LibcCall) (d n : ℕ) : Prop :=
  ∀ sh, ∃ sh', c.intercept t before after sh = some sh' ∧ ∀ a, memIsApp a = true →
    appShadow sh' a = if d ≤ a ∧ a < d + n then kCleanByte else appShadow sh a

/-- The destination of the call, or the string it returned. -/
def LibcCall.dest : LibcCall → Uptr
  | .strcpy dest _ | .strncpy dest _ _ | .stpcpy dest _ | .stpncpy dest _ _ => dest
  | .strdup _ res | .uStrdup _ res => res
  | .strcat dest _ | .strncat dest _ _ | .memccpy dest _ _ _ _ => dest
  | .wcscpy dest _ | .wcsncpy dest _ _ | .wmemcpy dest _ _ | .wmempcpy dest _ _ => dest
  | .wmemset s _ _ => s
  | .wmemmove dest _ _ | .mbtowc dest _ _ _ | .mbrtowc dest _ _ _ _ => dest
  | .gethostname name _ _ _ => name

/-- The interceptor takes a call that stored nothing for one that did: `strdup` returned null, or
a conversion to a wide character had no source or an incomplete one. -/
def LibcCall.Spurious : LibcCall → Prop
  | .strdup _ res | .uStrdup _ res => res = 0#64
  | .mbtowc dest src _ res => dest ≠ 0#64 ∧ src = 0#64 ∧ res ≠ -1
  | .mbrtowc dest src _ _ res =>
    dest ≠ 0#64 ∧ (src = 0#64 ∧ res ≠ BitVec.allOnes 64 ∨ res = -2#64)
  | _ => False

private theorem scanChars_eq {nul : ℕ → Bool} {k n i : ℕ}
    (hchars : ∀ j, i ≤ j → j < n → nul j = false) (hin : i ≤ n)
    (hend : n = i + k ∨ n < i + k ∧ nul n = true) : scanChars nul k i = n := by
  induction k generalizing i with
  | zero =>
    rw [scanChars]
    omega
  | succ k ih =>
    rw [scanChars]
    by_cases hlt : i < n
    · rw [hchars i le_rfl hlt, if_neg Bool.false_ne_true]
      refine ih (fun j hj => hchars j (by omega)) hlt ?_
      rcases hend with hend | ⟨hend, hnul⟩
      · exact Or.inl (by omega)
      · exact Or.inr ⟨by omega, hnul⟩
    · obtain rfl : i = n := by omega
      have hnul : nul i = true := by
        rcases hend with hend | hend
        · omega
        · exact hend.2
      rw [if_pos hnul]

section Lengths

variable {m : Mem} {s : Uptr} {k : ℕ}

private theorem AppString.lt (h : AppString m s.toNat k) : s.toNat + (k + 1) ≤ 2 ^ 47 :=
  h.app.lt (by omega)

private theorem AppString.strlen (h : AppString m s.toNat k) :
    (internalStrlen m s).toNat = k := by
  have hlt := h.lt
  have hscan : scanChars (isNul m s.toNat) (2 ^ 64) 0 = k :=
    scanChars_eq (fun j _ hj => h.chars j hj) (Nat.zero_le _) (Or.inr ⟨by omega, h.nul⟩)
  rw [internalStrlen, hscan, BitVec.toNat_ofNat]
  omega

private theorem AppString.strlen_add_one (h : AppString m s.toNat k) :
    (internalStrlen m s + 1#64).toNat = k + 1 := by
  have hlt := h.lt
  have hlen := h.strlen
  bv_omega

private theorem AppWideString.wcslen (h : AppWideString m s.toNat k) :
    (internalWcslen m s).toNat = k := by
  have hlt := h.app.lt (by omega)
  have hscan : scanChars (isWideNul m s.toNat) (2 ^ 64) 0 = k :=
    scanChars_eq (fun j _ hj => h.chars j hj) (Nat.zero_le _) (Or.inr ⟨by omega, h.nul⟩)
  rw [internalWcslen, hscan, BitVec.toNat_ofNat]
  omega

/-- A wide string depends on its own bytes only. -/
private theorem AppWideString.congr {m' : Mem} (h : AppWideString m s.toNat k)
    (hm : AgreeOn m m' s.toNat (4 * (k + 1))) : AppWideString m' s.toNat k := by
  have hunit : ∀ i ≤ k, isWideNul m' s.toNat i = isWideNul m s.toNat i := by
    intro i hi
    have h0 := hm (4 * i) (by omega)
    have h1 := hm (4 * i + 1) (by omega)
    have h2 := hm (4 * i + 2) (by omega)
    have h3 := hm (4 * i + 3) (by omega)
    simp only [isWideNul, ← Nat.add_assoc] at h0 h1 h2 h3 ⊢
    rw [h0, h1, h2, h3]
  exact ⟨h.app, fun i hi => (hunit i hi.le).trans (h.chars i hi), (hunit k le_rfl).trans h.nul⟩

end Lengths

section Compare

variable {t : Uptr} {before after : Mem} {c : LibcCall} {d n : ℕ}

/-- The interceptor unpoisons the range that was stored. -/
private theorem clearsExactly_of_unpoison {p m : Uptr} (hp : p.toNat = d) (hm : m.toNat = n)
    (hlt : p.toNat < 2 ^ 48) (happ : AppRange d n)
    (hint : ∀ sh, c.intercept t before after sh = some (cqmsanUnpoison t sh p m)) :
    ClearsExactly t before after c d n := by
  subst hp hm
  intro sh
  refine ⟨_, hint sh, fun a _ => ?_⟩
  rw [cqmsanUnpoison, appShadow_setAppShadow happ hlt, fill_apply]

/-- Nothing was stored and nothing is unpoisoned. -/
private theorem clearsExactly_of_nothing
    (hint : ∀ sh, c.intercept t before after sh = some sh) :
    ClearsExactly t before after c d 0 := by
  intro sh
  refine ⟨sh, hint sh, fun a _ => ?_⟩
  rw [if_neg (by omega)]

/-- Nothing was stored and a range is unpoisoned. -/
private theorem not_clearsExactly_of_unpoison {p m : Uptr} (hp : memIsApp p.toNat = true)
    (hm : 0 < m.toNat) (hlt : m.toNat ≤ 2 ^ 47)
    (hint : ∀ sh, c.intercept t before after sh = some (cqmsanUnpoison t sh p m)) :
    ¬ClearsExactly t before after c d 0 := by
  intro h
  obtain ⟨sh', hsh', hall⟩ := h fun _ => 0xff#8
  rw [hint] at hsh'
  cases hsh'
  have hfirst := hall p.toNat hp
  have hshadow : shadowOf p.toNat < 2 ^ 47 :=
    Nat.xor_lt_two_pow (lt_of_memIsApp hp) (by norm_num)
  rw [if_neg (by omega), cqmsanUnpoison, setAppShadow, hp, Bool.not_true,
    if_neg Bool.false_ne_true, setShadow_pages _ _ _ _ _ (by rw [toNat_memToShadow]; omega),
    appShadow, toNat_memToShadow, fill_apply, if_pos (by omega)] at hfirst
  have hbyte : 0#8 = 0xff#8 := hfirst
  exact absurd hbyte (by decide)

/-- `strdup` and `__strdup`. -/
private theorem clearsExactly_strdup_iff {src res : Uptr} {k : ℕ}
    (hs : AppString before src.toNat k) (hdest : memIsApp res.toNat = true)
    (hint : ∀ sh, c.intercept t before after sh = some (interceptStrdup t before sh src res)) :
    (res ≠ 0#64 → AppRange res.toNat (k + 1) →
      ClearsExactly t before after c res.toNat (k + 1)) ∧
    ¬ClearsExactly t before after c 0 0 := by
  have hlt := lt_of_memIsApp hdest
  refine ⟨fun _ happ => ?_, ?_⟩
  · exact clearsExactly_of_unpoison rfl hs.strlen_add_one (by omega) happ hint
  · refine not_clearsExactly_of_unpoison hdest ?_ ?_ hint
    · rw [hs.strlen_add_one]
      omega
    · rw [hs.strlen_add_one]
      have := hs.lt
      omega

/-- `mbtowc` and `mbrtowc` where nothing was stored. -/
private theorem clearsExactly_none_iff {dest : Uptr} {stores : Prop} [Decidable stores]
    (hdest : memIsApp dest.toNat = true)
    (hint : ∀ sh, c.intercept t before after sh =
      some (if stores then cqmsanUnpoison t sh dest sizeofWchar else sh)) :
    ClearsExactly t before after c 0 0 ↔ ¬stores := by
  by_cases hs : stores
  · refine iff_of_false ?_ (not_not.mpr hs)
    refine not_clearsExactly_of_unpoison (m := sizeofWchar) hdest (by decide) (by decide)
      fun sh => ?_
    rw [hint, if_pos hs]
  · refine iff_of_true (clearsExactly_of_nothing fun sh => ?_) hs
    rw [hint, if_neg hs]

/-- `mbtowc` and `mbrtowc` where a wide character was stored. -/
private theorem clearsExactly_some {dest : Uptr} {stores : Prop} [Decidable stores]
    (hdest : memIsApp dest.toNat = true) (happ : AppRange dest.toNat 4) (hs : stores)
    (hint : ∀ sh, c.intercept t before after sh =
      some (if stores then cqmsanUnpoison t sh dest sizeofWchar else sh)) :
    ClearsExactly t before after c dest.toNat 4 := by
  have hlt := lt_of_memIsApp hdest
  refine clearsExactly_of_unpoison (m := sizeofWchar) rfl rfl (by omega) happ fun sh => ?_
  rw [hint, if_pos hs]

private theorem clearsExactly_memccpy {dest src m res : Uptr} {ch : BitVec 32} {k : ℕ}
    (hdest : memIsApp dest.toNat = true) (hk : k < m.toNat)
    (hend : dest.toNat + m.toNat < 2 ^ 64) (hres : res.toNat = dest.toNat + (k + 1))
    (happ : AppRange dest.toNat (k + 1)) :
    ClearsExactly t before after (.memccpy dest src ch m res) dest.toNat (k + 1) := by
  have hlt := lt_of_memIsApp hdest
  have hsz : (res - dest).toNat = k + 1 := by bv_omega
  have hne : res ≠ 0#64 := fun h => by
    rw [h] at hres
    simp at hres
  have hcheck : res = 0#64 ∨ (dest ≤ res ∧ res ≤ dest + m) :=
    Or.inr ⟨by rw [BitVec.le_def]; omega, by bv_omega⟩
  refine clearsExactly_of_unpoison rfl hsz (by omega) happ fun sh => ?_
  simp only [LibcCall.intercept, interceptMemccpy]
  rw [if_pos hcheck, if_pos hne]

private theorem clearsExactly_wcscpy {dest src : Uptr} {k : ℕ}
    (hdest : memIsApp dest.toNat = true) (hs : AppWideString before src.toNat k)
    (hap : Apart dest.toNat (4 * (k + 1)) src.toNat (4 * (k + 1)))
    (hframe : ∀ a, ¬(dest.toNat ≤ a ∧ a < dest.toNat + 4 * (k + 1)) → after a = before a)
    (happ : AppRange dest.toNat (4 * (k + 1))) :
    ClearsExactly t before after (.wcscpy dest src) dest.toNat (4 * (k + 1)) := by
  have hlt := lt_of_memIsApp hdest
  have hend := happ.lt (by omega)
  -- the real function has not changed `src`
  have hs' : AppWideString after src.toNat k :=
    hs.congr fun i hi => hframe _ (by rcases hap with hap | hap <;> omega)
  have hlen := hs'.wcslen
  have hsize : (sizeofWchar * (internalWcslen after src + 1#64)).toNat = 4 * (k + 1) := by
    have hadd : (internalWcslen after src + 1#64).toNat = k + 1 := by bv_omega
    rw [BitVec.toNat_mul, hadd, sizeofWchar, BitVec.toNat_ofNat]
    omega
  exact clearsExactly_of_unpoison rfl hsize (by omega) happ fun _ => rfl

private theorem clearsExactly_strcat {dest p m : Uptr} {j k : ℕ}
    (hd : AppString before dest.toNat j) (hp : p = dest + internalStrlen before dest)
    (hm : m.toNat = k + 1) (happ : AppRange (dest.toNat + j) (k + 1))
    (hint : ∀ sh, c.intercept t before after sh = some (cqmsanUnpoison t sh p m)) :
    ClearsExactly t before after c (dest.toNat + j) (k + 1) := by
  have hlt := hd.lt
  have hlen := hd.strlen
  have hadd : p.toNat = dest.toNat + j := by rw [hp]; bv_omega
  exact clearsExactly_of_unpoison hadd hm (by omega) happ hint

private theorem clearsExactly_gethostname {name len : Uptr} {res : ℤ} {errno k n : ℕ}
    (hdest : memIsApp name.toNat = true) (happ : AppRange name.toNat n)
    (hres : res = 0 ∨ (res = -1 ∧ errno = errnoENAMETOOLONG))
    (hchars : ∀ i < k, isNul after name.toNat i = false)
    (hk : k = len.toNat ∧ n = k ∨ k < len.toNat ∧ n = k + 1 ∧ isNul after name.toNat k = true) :
    ClearsExactly t before after (.gethostname name len res errno) name.toNat n := by
  have hlt := lt_of_memIsApp hdest
  have hlen := len.isLt
  have hscan : scanChars (isNul after name.toNat) len.toNat 0 = k := by
    refine scanChars_eq (fun j _ hj => hchars j hj) (Nat.zero_le _) ?_
    rcases hk with ⟨hk, -⟩ | ⟨hk, -, hnul⟩
    · exact Or.inl (by omega)
    · exact Or.inr ⟨by omega, hnul⟩
  have hreal : (internalStrnlen after name len).toNat = k := by
    rw [internalStrnlen, hscan, BitVec.toNat_ofNat]
    omega
  have hsize : (if internalStrnlen after name len < len then internalStrnlen after name len + 1#64
      else internalStrnlen after name len).toNat = n := by
    split_ifs with hcmp
    · rw [BitVec.lt_def] at hcmp
      bv_omega
    · rw [BitVec.lt_def] at hcmp
      omega
  refine clearsExactly_of_unpoison rfl hsize (by omega) happ fun sh => ?_
  simp only [LibcCall.intercept, interceptGethostname]
  rw [if_pos hres]

/-- The functions that store `n` wide characters. -/
private theorem clearsExactly_wide {dest n : Uptr} (hdest : memIsApp dest.toNat = true)
    (happ : AppRange dest.toNat (4 * n.toNat))
    (hint : ∀ sh, c.intercept t before after sh =
      some (cqmsanUnpoison t sh dest (n * sizeofWchar))) :
    ClearsExactly t before after c dest.toNat (4 * n.toNat) := by
  have hlt := lt_of_memIsApp hdest
  have hn : 4 * n.toNat ≤ 2 ^ 47 := by
    rcases Nat.eq_zero_or_pos n.toNat with hz | hpos
    · omega
    · have := happ.lt (by omega)
      omega
  have hmul : (n * sizeofWchar).toNat = 4 * n.toNat := by
    rw [sizeofWchar, BitVec.toNat_mul, BitVec.toNat_ofNat]
    omega
  exact clearsExactly_of_unpoison rfl hmul (by omega) happ hint

end Compare

/-- **The libc write interceptors.** For every defined call with its buffers in application
memory, and every result: the interceptor clears exactly the bytes that the real function stored
iff it does not take a call that stored nothing for one that did. -/
theorem clearsExactly_iff (t : Uptr) (before after : Mem) (c : LibcCall) (d n : ℕ)
    (hst : Stores before after c d n)
    (hframe : ∀ a, ¬(d ≤ a ∧ a < d + n) → after a = before a) (happ : AppRange d n)
    (hdest : memIsApp c.dest.toNat = true) :
    ClearsExactly t before after c d n ↔ ¬c.Spurious := by
  have hlt := lt_of_memIsApp hdest
  have hlt' : c.dest.toNat < 2 ^ 48 := hlt.trans (by norm_num)
  cases hst with
  | strcpy hs =>
    exact iff_of_true
      (clearsExactly_of_unpoison rfl hs.strlen_add_one hlt' happ fun _ => rfl) id
  | strncpy => exact iff_of_true (clearsExactly_of_unpoison rfl rfl hlt' happ fun _ => rfl) id
  | stpcpy hs =>
    exact iff_of_true
      (clearsExactly_of_unpoison rfl hs.strlen_add_one hlt' happ fun _ => rfl) id
  | stpncpy => exact iff_of_true (clearsExactly_of_unpoison rfl rfl hlt' happ fun _ => rfl) id
  | strdup hs hres =>
    exact iff_of_true ((clearsExactly_strdup_iff hs hdest fun _ => rfl).1 hres happ) hres
  | strdupNull hs =>
    exact iff_of_false (clearsExactly_strdup_iff hs hdest fun _ => rfl).2 (not_not.mpr rfl)
  | uStrdup hs hres =>
    exact iff_of_true ((clearsExactly_strdup_iff hs hdest fun _ => rfl).1 hres happ) hres
  | uStrdupNull hs =>
    exact iff_of_false (clearsExactly_strdup_iff hs hdest fun _ => rfl).2 (not_not.mpr rfl)
  | strcat hd hs =>
    exact iff_of_true (clearsExactly_strcat hd rfl hs.strlen_add_one happ fun _ => rfl) id
  | @strncat dest src m j k hd hchars hk =>
    have hscan : scanChars (isNul before src.toNat) m.toNat 0 = k := by
      refine scanChars_eq (fun j _ hj => hchars j hj) (Nat.zero_le _) ?_
      rwa [Nat.zero_add]
    have hend := happ.lt (by omega)
    have hsize : (internalStrnlen before src m + 1#64).toNat = k + 1 := by
      have hlen : (internalStrnlen before src m).toNat = k := by
        rw [internalStrnlen, hscan, BitVec.toNat_ofNat]
        omega
      bv_omega
    exact iff_of_true (clearsExactly_strcat hd rfl hsize happ fun _ => rfl) id
  | memccpy hk hend hbefore hc hres =>
    exact iff_of_true (clearsExactly_memccpy hdest hk hend hres happ) id
  | memccpyNull hbefore =>
    refine iff_of_true (clearsExactly_of_unpoison rfl rfl hlt' happ fun sh => ?_) id
    simp [LibcCall.intercept, interceptMemccpy]
  | wcscpy hs hap => exact iff_of_true (clearsExactly_wcscpy hdest hs hap hframe happ) id
  | wcsncpy => exact iff_of_true (clearsExactly_wide hdest happ fun _ => rfl) id
  | wmemcpy => exact iff_of_true (clearsExactly_wide hdest happ fun _ => rfl) id
  | wmempcpy => exact iff_of_true (clearsExactly_wide hdest happ fun _ => rfl) id
  | wmemset => exact iff_of_true (clearsExactly_wide hdest happ fun _ => if_pos hdest) id
  | wmemmove => exact iff_of_true (clearsExactly_wide hdest happ fun _ => rfl) id
  | @mbtowc dest src m res hd hsrc hres =>
    refine iff_of_true (clearsExactly_some hdest happ ⟨by omega, hd⟩ fun _ => rfl) ?_
    exact fun h => hsrc h.2.1
  | @mbtowcNone dest src m res h =>
    refine (clearsExactly_none_iff hdest fun _ => rfl).trans (not_congr ?_)
    simp only [LibcCall.Spurious]
    tauto
  | @mbrtowc dest src m ps res hd hsrc hres hinvalid hincomplete =>
    refine iff_of_true (clearsExactly_some hdest happ ⟨hinvalid, hd⟩ fun _ => rfl) ?_
    rintro ⟨-, h | h⟩
    · exact hsrc h.1
    · exact hincomplete h
  | @mbrtowcNone dest src m ps res h =>
    have hne : (-2#64 : Uptr) ≠ BitVec.allOnes 64 := by decide
    refine (clearsExactly_none_iff hdest fun _ => rfl).trans (not_congr ?_)
    simp only [LibcCall.Spurious]
    constructor
    · rintro ⟨hres, hd⟩
      exact ⟨hd, by tauto⟩
    · rintro ⟨hd, h | rfl⟩
      · exact ⟨h.2, hd⟩
      · exact ⟨hne, hd⟩
  | gethostname hk hchars hnul =>
    exact iff_of_true (clearsExactly_gethostname hdest happ (Or.inl rfl) hchars
      (Or.inr ⟨hk, rfl, hnul⟩)) id
  | gethostnameLong hchars =>
    exact iff_of_true (clearsExactly_gethostname hdest happ (Or.inr ⟨rfl, rfl⟩) hchars
      (Or.inl ⟨rfl, rfl⟩)) id
  | gethostnameError herrno =>
    refine iff_of_true (clearsExactly_of_nothing fun sh => ?_) id
    simp [LibcCall.intercept, interceptGethostname, herrno]

/-- `mbrtowc` completes a character of two bytes. -/
theorem clearsExactly_mbrtowc :
    ClearsExactly 0x10000#64 (fun _ => 0#8) (fun _ => 0#8)
      (.mbrtowc 0x1000#64 0x2000#64 6#64 0x3000#64 2#64) 0x1000 4 := by
  refine (clearsExactly_iff 0x10000#64 (fun _ => 0#8) (fun _ => 0#8)
    (.mbrtowc 0x1000#64 0x2000#64 6#64 0x3000#64 2#64) 0x1000 4 ?_ (fun _ _ => rfl) ?_ ?_).mpr ?_
  · exact .mbrtowc (by decide) (by decide) (by decide) (by decide) (by decide)
  · intro i hi
    exact memIsApp_iff.mpr (Or.inl (by omega))
  · decide
  · rintro ⟨-, h | h⟩
    · exact absurd h.1 (by decide)
    · exact absurd h (by decide)

/-- `mbrtowc` finds an incomplete character and returns `(size_t)-2`: it has stored nothing, and
the interceptor clears the destination. -/
theorem not_clearsExactly_mbrtowc_incomplete :
    Stores (fun _ => 0xc3#8) (fun _ => 0xc3#8)
      (.mbrtowc 0x1000#64 0x2000#64 1#64 0x3000#64 (-2#64)) 0 0 ∧
    ¬ClearsExactly 0x10000#64 (fun _ => 0xc3#8) (fun _ => 0xc3#8)
      (.mbrtowc 0x1000#64 0x2000#64 1#64 0x3000#64 (-2#64)) 0 0 := by
  refine ⟨.mbrtowcNone (by decide), fun h => ?_⟩
  obtain ⟨sh', hsh', hall⟩ := h fun _ => 0xff#8
  cases hsh'
  have hbyte := hall 0x1000 (by decide)
  exact absurd hbyte (by decide)

end CQMSan
