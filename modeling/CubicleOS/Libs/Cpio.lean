import CubicleOS.Foundation.Outcome
import CubicleOS.Foundation.Pages
import CubicleOS.Foundation.Files

/-!
# The archive of the root file system

`copy_cpio` of libnginx unpacks a cpio archive in the newc format, which lies in
memory, into the root file system. It walks the headers, looks the size and the
data of each entry up by name from the start of the archive again, and makes a
directory of what has no data.

The code works on memory and addresses. What it is meant to do is said of a list
of entries: how an archive lays them out in memory is the format's definition,
and that the walk reads them back is the link between the two. The calls into
the file system are those of `Foundation.Fs`; that one of them has failed is
remembered. Output is left out, and so is the window on the path.
-/

namespace CubicleOS

namespace Cpio

open Foundation

/-! ## §1  Headers -/

abbrev Mem := UInt64 → UInt8

/-- A `char *` into memory. -/
def strAt (mem : Mem) (p : UInt64) : ℕ → UInt8 := fun i => mem (p + UInt64.ofNat i)

/-- A string literal. -/
def literal (s : List UInt8) : ℕ → UInt8 := fun i => s.getD i 0

/-- The `n` bytes from `p` on. -/
def bytesAt (mem : Mem) (p : UInt64) (n : ℕ) : List UInt8 := (List.range n).map (strAt mem p)

def hexDigit (c : UInt8) : Option ℕ :=
  if 48 ≤ c ∧ c ≤ 57 then some (c.toNat - 48)
  else if 97 ≤ c ∧ c ≤ 102 then some (c.toNat - 97 + 10)
  else if 65 ≤ c ∧ c ≤ 70 then some (c.toNat - 65 + 10)
  else none

/-- The loop of `parse_hex_str`; anything but a digit ends it. -/
def parseHexFrom (r : UInt64) : List UInt8 → UInt64
  | [] => r
  | c :: cs =>
      match hexDigit c with
      | some d => parseHexFrom (r * 16 + UInt64.ofNat d) cs
      | none => r * 16

def parseHexStr (mem : Mem) (s : UInt64) (maxLen : ℕ) : UInt64 :=
  parseHexFrom 0 (bytesAt mem s maxLen)

/-- `cpio_strncmp`, from the `i`-th character on with `n` to go. -/
def cpioStrncmp (a b : ℕ → UInt8) : ℕ → ℕ → ℤ
  | 0, _ => 0
  | n + 1, i =>
      if a i ≠ b i then (a i).toInt8.toInt - (b i).toInt8.toInt
      else if a i = 0 then 0
      else cpioStrncmp a b n (i + 1)

/-- `CPIO_HEADER_MAGIC`, `070701`. -/
def headerMagic : List UInt8 := [48, 55, 48, 55, 48, 49]

/-- `CPIO_FOOTER_MAGIC`, `TRAILER!!!`. -/
def footerMagic : List UInt8 := [84, 82, 65, 73, 76, 69, 82, 33, 33, 33]

/-- What `cpio_parse_header` returns and stores. -/
inductive Parsed where
  | invalid
  | eof
  | entry (filename filesize data next : UInt64)
deriving DecidableEq, Repr

/-- `sizeof(struct cpio_header)`; `c_mode`, `c_filesize` and `c_namesize` are at
14, 54 and 94. -/
def headerSize : UInt64 := 110

/-- `CPIO_ALIGNMENT`. -/
def cpioAlignment : UInt64 := 4

def cpioParseHeader (mem : Mem) (archive : UInt64) : Parsed :=
  if cpioStrncmp (strAt mem archive) (literal headerMagic) 6 0 ≠ 0 then .invalid
  else
    let filesize := parseHexStr mem (archive + 54) 8
    let filename := archive + headerSize
    if cpioStrncmp (strAt mem filename) (literal footerMagic) 11 0 = 0 then .eof
    else
      let filenameLength := parseHexStr mem (archive + 94) 8
      let data := alignUp (archive + headerSize + filenameLength) cpioAlignment
      let next := alignUp (data + filesize) cpioAlignment
      .entry filename filesize data next

/-- `cpio_get_file`, from `header` on; the second result is `*size`. -/
def cpioGetFile (mem : Mem) (name : UInt64) : ℕ → UInt64 → UInt64 →
    Outcome (Option UInt64 × UInt64)
  | 0, _, _ => .spin
  | fuel + 1, header, size =>
      match cpioParseHeader mem header with
      | .invalid => .done (none, size)
      | .eof => .done (none, size)
      | .entry currentFilename filesize result next =>
          if cpioStrncmp (strAt mem currentFilename) (strAt mem name) (2 ^ 64 - 1) 0 = 0 then
            .done (some result, filesize)
          else cpioGetFile mem name fuel next filesize

/-! ## §2  Unpacking -/

/-- The file system, and whether a call has failed. -/
structure Root where
  fs : Fs
  failed : Bool

def makeDir (path : List UInt8) (r : Root) : Root :=
  match r.fs.mkdir path with
  | some fs => { r with fs := fs }
  | none => { r with failed := true }

/-- `open`, `write` and `close`; there is nothing to write from `NULL`. -/
def storeFile (path : List UInt8) (bytes : Option (List UInt8)) (r : Root) : Root :=
  match r.fs.openAppend path with
  | none => { r with failed := true }
  | some (fs, fd) =>
      match bytes.bind (fs.write fd) with
      | some fs => { r with fs := fs }
      | none => { fs := fs, failed := true }

/-- `sprintf(path, "/%s", filename)`, into 4096 bytes. -/
def sprintfPath (mem : Mem) (filename : UInt64) : Outcome (List UInt8) :=
  let text := (bytesAt mem filename 4095).takeWhile (· ≠ 0)
  if text.length < 4095 then .done (slash :: text) else .wild

/-- The loop of `copy_cpio`; `fuel` is for it, `inner` for the lookups by name. -/
def copyLoop (mem : Mem) (archive : UInt64) (inner : ℕ) : ℕ → UInt64 → Root → Outcome Root
  | 0, _, _ => .spin
  | fuel + 1, header, r =>
      match cpioParseHeader mem header with
      | .invalid => .done r
      | .eof => .done r
      | .entry filename size _ next =>
          (cpioGetFile mem filename inner archive size).bind fun (_, size) =>
          if mem filename = dot then copyLoop mem archive inner fuel next r
          else
            (sprintfPath mem filename).bind fun path =>
            if size = 0 then copyLoop mem archive inner fuel next (makeDir path r)
            else
              (cpioGetFile mem filename inner archive size).bind fun (ptr, size) =>
                copyLoop mem archive inner fuel next
                  (storeFile path (ptr.map fun p => bytesAt mem p size.toNat) r)

def copyCpio (mem : Mem) (archive : UInt64) (fuel : ℕ) (fs : Fs) : Outcome Root :=
  copyLoop mem archive fuel fuel archive { fs := fs, failed := false }

/-! ## §3  The format -/

structure Entry where
  mode : ℕ
  name : List UInt8
  data : List UInt8
deriving DecidableEq, Repr

/-- `S_ISDIR`. -/
def Entry.isDir (e : Entry) : Prop := e.mode &&& 0xF000 = 0x4000

/-- `S_ISREG`. -/
def Entry.isReg (e : Entry) : Prop := e.mode &&& 0xF000 = 0x8000

instance : DecidablePred Entry.isDir := fun _ => inferInstanceAs (Decidable (_ = _))

instance : DecidablePred Entry.isReg := fun _ => inferInstanceAs (Decidable (_ = _))

/-- Where the entry belongs. -/
def Entry.path (e : Entry) : List UInt8 := slash :: e.name

/-- The value of a field of hexadecimal digits. -/
def hexValue (r : ℕ) : List UInt8 → Option ℕ
  | [] => some r
  | c :: cs => (hexDigit c).bind fun d => hexValue (r * 16 + d) cs

/-- The header at `a` of an entry with `size` bytes of data. -/
structure HeaderAt (mem : Mem) (a mode : ℕ) (name : List UInt8) (size : ℕ) : Prop where
  magic : bytesAt mem (UInt64.ofNat a) 6 = headerMagic
  mode : hexValue 0 (bytesAt mem (UInt64.ofNat (a + 14)) 8) = some mode
  filesize : hexValue 0 (bytesAt mem (UInt64.ofNat (a + 54)) 8) = some size
  namesize : hexValue 0 (bytesAt mem (UInt64.ofNat (a + 94)) 8) = some (name.length + 1)
  name : bytesAt mem (UInt64.ofNat (a + 110)) (name.length + 1) = name ++ [0]

/-- The next multiple of four. -/
def align4 (n : ℕ) : ℕ := (n + 3) / 4 * 4

/-- The offset of the data of the entry at the offset `n`. -/
def dataStart (n : ℕ) (e : Entry) : ℕ := align4 (n + 110 + (e.name.length + 1))

/-- The offset of the entry after it. -/
def nextStart (n : ℕ) (e : Entry) : ℕ := align4 (dataStart n e + e.data.length)

/-- The entries `es` from the offset `n` of the archive at `base` on: header,
data, and so on to the trailer, all of it below the end of memory. Padding
counts from the start of the archive. -/
def Archive (mem : Mem) (base : ℕ) : ℕ → List Entry → Prop
  | n, [] => (∃ mode, HeaderAt mem (base + n) mode footerMagic 0) ∧ base + n + 121 ≤ 2 ^ 64
  | n, e :: es =>
      HeaderAt mem (base + n) e.mode e.name e.data.length ∧
        bytesAt mem (UInt64.ofNat (base + dataStart n e)) e.data.length = e.data ∧
        Archive mem base (nextStart n e) es

/-- A directory or a regular file with a name that is neither hidden nor too
long. -/
structure Entry.Legal (e : Entry) : Prop where
  kind : e.isDir ∨ e.isReg
  bare : e.isDir → e.data = []
  short : e.name.length < 4095
  undotted : e.name.head? ≠ some dot
  text : 0 ∉ e.name
  notFooter : e.name ≠ footerMagic

/-- Every entry is there, with its kind and its content. -/
def Unpacked (fs : Fs) (es : List Entry) : Prop :=
  ∀ e ∈ es, (e.isDir → fs.stat e.path = some .dir) ∧
    (e.isReg → fs.stat e.path = some (.file e.data))

instance (fs : Fs) (es : List Entry) : Decidable (Unpacked fs es) :=
  inferInstanceAs (Decidable (∀ e ∈ es, _ ∧ _))

/-! ## §4  The walk reads the format -/

section Reading

variable {mem : Mem} {a b : ℕ → UInt8}

theorem hexValue_parse {cs : List UInt8} {r v : ℕ} (h : hexValue r cs = some v) :
    parseHexFrom (UInt64.ofNat r) cs = UInt64.ofNat v := by
  induction cs generalizing r with
  | nil =>
      cases h
      rfl
  | cons c cs ih =>
      obtain ⟨d, hd, h⟩ := Option.bind_eq_some_iff.mp h
      have hnext := ih h
      rw [UInt64.ofNat_add, UInt64.ofNat_mul] at hnext
      unfold parseHexFrom
      rw [hd]
      exact hnext

theorem strAt_of_bytesAt {p : UInt64} {n i : ℕ} {l : List UInt8} (h : bytesAt mem p n = l)
    (hi : i < n) : strAt mem p i = l.getD i 0 := by
  subst h
  simp [bytesAt, hi]

/-- The string `x` and its end are at `i`. -/
def CStr (f : ℕ → UInt8) : ℕ → List UInt8 → Prop
  | i, [] => f i = 0
  | i, c :: cs => f i = c ∧ c ≠ 0 ∧ CStr f (i + 1) cs

theorem cStr_of_getD {x : List UInt8} {i : ℕ} (hx : 0 ∉ x)
    (h : ∀ k ≤ x.length, a (i + k) = (x ++ [0]).getD k 0) : CStr a i x := by
  induction x generalizing i with
  | nil => exact h 0 le_rfl
  | cons c cs ih =>
      refine ⟨h 0 (Nat.zero_le _), fun hc => hx (hc ▸ List.mem_cons_self), ?_⟩
      apply ih (fun hm => hx (List.mem_cons_of_mem c hm))
      intro k hk
      have hnext := h (k + 1) (Nat.succ_le_succ hk)
      rw [show i + 1 + k = i + (k + 1) by omega, hnext]
      rfl

theorem cStr_of_bytesAt {p : UInt64} {x : List UInt8}
    (h : bytesAt mem p (x.length + 1) = x ++ [0]) (hx : 0 ∉ x) : CStr (strAt mem p) 0 x := by
  apply cStr_of_getD hx
  intro k hk
  rw [zero_add]
  exact strAt_of_bytesAt h (Nat.lt_succ_of_le hk)

theorem cStr_literal {x : List UInt8} (hx : 0 ∉ x) : CStr (literal x) 0 x := by
  apply cStr_of_getD hx
  intro k hk
  rw [zero_add]
  unfold literal
  rcases Nat.lt_or_eq_of_le hk with hlt | rfl
  · rw [List.getD_append _ _ _ _ hlt]
  · simp

theorem char_sub_ne_zero {c d : UInt8} (h : c ≠ d) : c.toInt8.toInt - d.toInt8.toInt ≠ 0 := by
  intro hsub
  apply h
  have hint : c.toInt8 = d.toInt8 := Int8.toInt_inj.mp (by omega)
  exact congrArg Int8.toUInt8 hint

/-- `cpio_strncmp` tells strings apart, if it may look far enough. -/
theorem cpioStrncmp_eq_zero_iff {x y : List UInt8} {n i : ℕ} (ha : CStr a i x) (hb : CStr b i y)
    (hn : y.length < n) : cpioStrncmp a b n i = 0 ↔ x = y := by
  induction y generalizing x n i with
  | nil =>
      obtain ⟨n, rfl⟩ := Nat.exists_eq_succ_of_ne_zero (Nat.ne_zero_of_lt hn)
      have hbi : b i = 0 := hb
      unfold cpioStrncmp
      cases x with
      | nil =>
          have hai : a i = 0 := ha
          simp [hai, hbi]
      | cons c cs =>
          obtain ⟨hai, hc, -⟩ := ha
          have hne : a i ≠ b i := by rwa [hai, hbi]
          rw [if_pos hne]
          simpa using char_sub_ne_zero hne
  | cons d ds ih =>
      obtain ⟨n, rfl⟩ := Nat.exists_eq_succ_of_ne_zero (Nat.ne_zero_of_lt hn)
      obtain ⟨hbi, hd, hb⟩ := hb
      unfold cpioStrncmp
      cases x with
      | nil =>
          have hai : a i = 0 := ha
          have hne : a i ≠ b i := by
            rw [hai, hbi]
            exact hd.symm
          rw [if_pos hne]
          simpa using char_sub_ne_zero hne
      | cons c cs =>
          obtain ⟨hai, hc, ha⟩ := ha
          by_cases hcd : c = d
          · subst hcd
            have hlast : a i ≠ 0 := by rwa [hai]
            rw [if_neg (by simp [hai, hbi]), if_neg hlast, ih ha hb (Nat.lt_of_succ_lt_succ hn)]
            simp
          · have hne : a i ≠ b i := by rwa [hai, hbi]
            rw [if_pos hne]
            simpa [hcd] using char_sub_ne_zero hne

theorem cpioStrncmp_same {n i : ℕ} (h : ∀ k < n, a (i + k) = b (i + k)) :
    cpioStrncmp a b n i = 0 := by
  induction n generalizing i with
  | zero => rfl
  | succ n ih =>
      have hi : a i = b i := h 0 (Nat.succ_pos n)
      unfold cpioStrncmp
      rw [if_neg (not_not_intro hi)]
      split
      · rfl
      · apply ih
        intro k hk
        rw [show i + 1 + k = i + (k + 1) by omega]
        exact h (k + 1) (Nat.succ_lt_succ hk)

theorem headerMagic_found {p : UInt64} (h : bytesAt mem p 6 = headerMagic) :
    cpioStrncmp (strAt mem p) (literal headerMagic) 6 0 = 0 := by
  apply cpioStrncmp_same
  intro k hk
  rw [zero_add]
  exact strAt_of_bytesAt h hk

theorem footerMagic_text : 0 ∉ footerMagic := by decide

end Reading

/-- An archive at a multiple of four is padded as its addresses are. -/
theorem alignUp_align4 {base n : ℕ} (hbase : 4 ∣ base) (hfit : base + align4 n + 4 ≤ 2 ^ 64) :
    alignUp (UInt64.ofNat (base + n)) cpioAlignment = UInt64.ofNat (base + align4 n) := by
  unfold align4 at hfit ⊢
  have hlow : base + n < 2 ^ 64 := by omega
  have hn : (UInt64.ofNat (base + n)).toNat = base + n := UInt64.toNat_ofNat_of_lt' hlow
  have hfour : cpioAlignment.toNat = 4 := rfl
  have hround : (alignUp (UInt64.ofNat (base + n)) cpioAlignment).toNat =
      pageBase 4 (base + n + 4 - 1) := by
    rw [alignUp_toNat (k := 2) rfl (by rw [hn, hfour]; omega), hn, hfour]
  apply UInt64.toNat_inj.mp
  rw [hround, UInt64.toNat_ofNat_of_lt' (show base + (n + 3) / 4 * 4 < UInt64.size by
    change _ < 2 ^ 64
    omega)]
  unfold pageBase
  omega

section Walk

variable {mem : Mem} {base : ℕ}

theorem le_align4 (n : ℕ) : n ≤ align4 n := by
  unfold align4
  omega

theorem Archive.fits {es : List Entry} {n : ℕ} (h : Archive mem base n es) :
    base + n + 121 ≤ 2 ^ 64 := by
  induction es generalizing n with
  | nil => exact h.2
  | cons e es ih =>
      have hnext := ih h.2.2
      have hdata := le_align4 (n + 110 + (e.name.length + 1))
      have hend := le_align4 (dataStart n e + e.data.length)
      unfold nextStart at hnext
      unfold dataStart at hnext hend
      omega

/-- Only the trailer is taken for the trailer. -/
theorem HeaderAt.footer_iff {n mode size : ℕ} {name : List UInt8}
    (h : HeaderAt mem n mode name size) (hname : 0 ∉ name) :
    cpioStrncmp (strAt mem (UInt64.ofNat n + headerSize)) (literal footerMagic) 11 0 = 0 ↔
      name = footerMagic := by
  rw [show headerSize = UInt64.ofNat 110 from rfl, ← UInt64.ofNat_add]
  exact cpioStrncmp_eq_zero_iff (cStr_of_bytesAt h.name hname) (cStr_literal footerMagic_text)
    (by decide)

theorem parse_trailer {n mode : ℕ} (h : HeaderAt mem n mode footerMagic 0) :
    cpioParseHeader mem (UInt64.ofNat n) = .eof := by
  unfold cpioParseHeader
  rw [if_neg (not_not_intro (headerMagic_found h.magic))]
  exact if_pos ((h.footer_iff footerMagic_text).mpr rfl)

theorem parse_entry {e : Entry} {n : ℕ} (hbase : 4 ∣ base) (hlegal : e.Legal)
    (h : HeaderAt mem (base + n) e.mode e.name e.data.length)
    (hfit : base + nextStart n e + 121 ≤ 2 ^ 64) :
    cpioParseHeader mem (UInt64.ofNat (base + n)) =
      .entry (UInt64.ofNat (base + n + 110)) (UInt64.ofNat e.data.length)
        (UInt64.ofNat (base + dataStart n e)) (UInt64.ofNat (base + nextStart n e)) := by
  have hmore := (h.footer_iff hlegal.text).not.mpr hlegal.notFooter
  have hsize : parseHexStr mem (UInt64.ofNat (base + n) + 54) 8 = UInt64.ofNat e.data.length := by
    have := hexValue_parse h.filesize
    rwa [UInt64.ofNat_add] at this
  have hlen : parseHexStr mem (UInt64.ofNat (base + n) + 94) 8 =
      UInt64.ofNat (e.name.length + 1) := by
    have := hexValue_parse h.namesize
    rwa [UInt64.ofNat_add] at this
  have hend := le_align4 (dataStart n e + e.data.length)
  have hdata : alignUp (UInt64.ofNat (base + n) + headerSize + UInt64.ofNat (e.name.length + 1))
      cpioAlignment = UInt64.ofNat (base + dataStart n e) := by
    rw [show headerSize = UInt64.ofNat 110 from rfl, ← UInt64.ofNat_add, ← UInt64.ofNat_add,
      show base + n + 110 + (e.name.length + 1) = base + (n + 110 + (e.name.length + 1)) by omega]
    apply alignUp_align4 hbase
    change base + dataStart n e + 4 ≤ 2 ^ 64
    unfold nextStart at hfit
    omega
  have hnext : alignUp (UInt64.ofNat (base + dataStart n e) + UInt64.ofNat e.data.length)
      cpioAlignment = UInt64.ofNat (base + nextStart n e) := by
    rw [← UInt64.ofNat_add, Nat.add_assoc]
    apply alignUp_align4 hbase
    change base + nextStart n e + 4 ≤ 2 ^ 64
    omega
  unfold cpioParseHeader
  rw [if_neg (not_not_intro (headerMagic_found h.magic))]
  dsimp only
  rw [if_neg hmore, hsize, hlen, hdata, hnext, UInt64.ofNat_add (base + n) 110]
  rfl

/-- The lookup by name finds the entry with that name. -/
theorem cpioGetFile_eq {name : UInt64} {e : Entry} {es : List Entry} {n fuel : ℕ} {size : UInt64}
    (hbase : 4 ∣ base) (harchive : Archive mem base n es) (hlegal : ∀ e ∈ es, e.Legal)
    (hnames : (es.map Entry.name).Nodup) (he : e ∈ es) (hname : CStr (strAt mem name) 0 e.name)
    (hfuel : es.length < fuel) :
    ∃ p, cpioGetFile mem name fuel (UInt64.ofNat (base + n)) size =
        .done (some p, UInt64.ofNat e.data.length) ∧
      bytesAt mem p e.data.length = e.data := by
  induction es generalizing n fuel size with
  | nil => cases he
  | cons d es ih =>
      obtain ⟨fuel, rfl⟩ := Nat.exists_eq_succ_of_ne_zero (Nat.ne_zero_of_lt hfuel)
      obtain ⟨hhead, hdata, hrest⟩ := harchive
      have hd := hlegal d List.mem_cons_self
      have hlen : e.name.length < 2 ^ 64 - 1 := by
        have hshort := (hlegal e he).short
        omega
      have hsame := cpioStrncmp_eq_zero_iff (cStr_of_bytesAt hhead.name hd.text) hname hlen
      obtain ⟨hfresh, hnames⟩ := List.nodup_cons.mp hnames
      unfold cpioGetFile
      rw [parse_entry hbase hd hhead hrest.fits]
      dsimp only
      rcases List.mem_cons.mp he with rfl | he
      · rw [if_pos (hsame.mpr rfl)]
        exact ⟨_, rfl, hdata⟩
      · have hother : d.name ≠ e.name := by
          intro heq
          exact hfresh (heq ▸ List.mem_map_of_mem he)
        rw [if_neg (hsame.not.mpr hother)]
        apply ih hrest (fun d hd => hlegal d (List.mem_cons_of_mem _ hd)) hnames he
        exact Nat.lt_of_succ_lt_succ hfuel

theorem takeWhile_bytesAt {p : UInt64} {x : List UInt8} {n : ℕ}
    (h : bytesAt mem p (x.length + 1) = x ++ [0]) (hx : 0 ∉ x) (hn : x.length < n) :
    (bytesAt mem p n).takeWhile (· ≠ 0) = x := by
  have hsplit : bytesAt mem p n = x ++ 0 :: (bytesAt mem p n).drop (x.length + 1) := by
    have htake : (bytesAt mem p n).take (x.length + 1) = x ++ [0] := by
      rw [← h]
      simp only [bytesAt, ← List.map_take, List.take_range]
      rw [min_eq_left (Nat.succ_le_of_lt hn)]
    calc bytesAt mem p n
        = (bytesAt mem p n).take (x.length + 1) ++ (bytesAt mem p n).drop (x.length + 1) :=
          (List.take_append_drop _ _).symm
      _ = x ++ 0 :: (bytesAt mem p n).drop (x.length + 1) := by
          rw [htake]
          simp
  rw [hsplit, List.takeWhile_append_of_pos]
  · simp
  · intro c hc
    have hne : c ≠ 0 := fun hzero => hx (hzero ▸ hc)
    simpa using hne

theorem sprintfPath_eq {e : Entry} {p : UInt64}
    (h : bytesAt mem p (e.name.length + 1) = e.name ++ [0]) (hlegal : e.Legal) :
    sprintfPath mem p = .done e.path := by
  unfold sprintfPath
  dsimp only
  rw [takeWhile_bytesAt h hlegal.text hlegal.short, if_pos hlegal.short]
  rfl

theorem not_hidden {e : Entry} {p : UInt64} (h : CStr (strAt mem p) 0 e.name)
    (hlegal : e.Legal) : mem p ≠ dot := by
  have hfirst : strAt mem p 0 = mem p := congrArg mem (by simp)
  intro hdot
  have hhead := hlegal.undotted
  cases hname : e.name with
  | nil =>
      rw [hname] at h
      have hzero : mem p = 0 := hfirst ▸ h
      rw [hzero] at hdot
      exact absurd hdot (by decide)
  | cons c cs =>
      rw [hname] at h hhead
      apply hhead
      rw [List.head?_cons, ← h.1, hfirst, hdot]

end Walk

/-- What is made of an entry: what has no data becomes a directory. -/
def unpackEntry (r : Root) (e : Entry) : Root :=
  if e.data = [] then makeDir e.path r else storeFile e.path (some e.data) r

/-- The loop over memory is a fold over the entries. -/
theorem copyLoop_eq {mem : Mem} {base inner : ℕ} {all es : List Entry} {n fuel : ℕ} {r : Root}
    (hbase : 4 ∣ base) (hall : Archive mem base 0 all) (hlegal : ∀ e ∈ all, e.Legal)
    (hnames : (all.map Entry.name).Nodup) (hinner : all.length < inner)
    (hes : es ⊆ all) (hrest : Archive mem base n es) (hfuel : es.length < fuel) :
    copyLoop mem (UInt64.ofNat base) inner fuel (UInt64.ofNat (base + n)) r =
      .done (es.foldl unpackEntry r) := by
  induction es generalizing n fuel r with
  | nil =>
      obtain ⟨fuel, rfl⟩ := Nat.exists_eq_succ_of_ne_zero (Nat.ne_zero_of_lt hfuel)
      obtain ⟨⟨mode, htrailer⟩, -⟩ := hrest
      unfold copyLoop
      rw [parse_trailer htrailer]
      rfl
  | cons e es ih =>
      obtain ⟨fuel, rfl⟩ := Nat.exists_eq_succ_of_ne_zero (Nat.ne_zero_of_lt hfuel)
      obtain ⟨hhead, hdata, hrest⟩ := hrest
      have he : e ∈ all := hes List.mem_cons_self
      have hname := cStr_of_bytesAt hhead.name (hlegal e he).text
      -- both lookups are the same call
      obtain ⟨p, hfind, hbytes⟩ : ∃ p,
          cpioGetFile mem (UInt64.ofNat (base + n + 110)) inner (UInt64.ofNat base)
            (UInt64.ofNat e.data.length) = .done (some p, UInt64.ofNat e.data.length) ∧
          bytesAt mem p e.data.length = e.data :=
        cpioGetFile_eq hbase hall hlegal hnames he hname hinner
      have hsmall : e.data.length < 2 ^ 64 := by
        have hfit := hrest.fits
        have hend := le_align4 (dataStart n e + e.data.length)
        unfold nextStart at hfit
        omega
      have hsize : (UInt64.ofNat e.data.length).toNat = e.data.length :=
        UInt64.toNat_ofNat_of_lt' hsmall
      have hgo (r : Root) := ih (r := r) (fun d hd => hes (List.mem_cons_of_mem e hd)) hrest
        (Nat.lt_of_succ_lt_succ hfuel)
      unfold copyLoop
      rw [parse_entry hbase (hlegal e he) hhead hrest.fits]
      dsimp only
      rw [hfind, Outcome.done_bind, if_neg (not_hidden hname (hlegal e he)),
        sprintfPath_eq hhead.name (hlegal e he), Outcome.done_bind, hfind, Outcome.done_bind,
        List.foldl_cons, hgo, hgo]
      dsimp only
      rw [Option.map_some, hsize, hbytes]
      have hempty : UInt64.ofNat e.data.length = 0 ↔ e.data = [] := by
        rw [← UInt64.toNat_inj, hsize, UInt64.toNat_zero, List.length_eq_zero_iff]
      unfold unpackEntry
      by_cases hnil : e.data = []
      · rw [if_pos (hempty.mpr hnil), if_pos hnil]
      · rw [if_neg (hempty.not.mpr hnil), if_neg hnil]

theorem copyCpio_eq {mem : Mem} {archive : UInt64} {es : List Entry} {fuel : ℕ} (fs : Fs)
    (haligned : 4 ∣ archive.toNat) (harchive : Archive mem archive.toNat 0 es)
    (hlegal : ∀ e ∈ es, e.Legal) (hnames : (es.map Entry.name).Nodup) (hfuel : es.length < fuel) :
    copyCpio mem archive fuel fs = .done (es.foldl unpackEntry { fs := fs, failed := false }) := by
  have hrun := copyLoop_eq (r := { fs := fs, failed := false }) haligned harchive hlegal hnames
    hfuel (List.Subset.refl es) harchive hfuel
  rwa [Nat.add_zero, UInt64.ofNat_toNat] at hrun

/-! ## §5  What is unpacked -/

section Unpacking

variable {r : Root} {es : List Entry}

/-- A step without a failed call, and what it made at the entry's place. -/
theorem unpackEntry_ok {e : Entry} (h : (unpackEntry r e).failed = false) :
    r.failed = false ∧ r.fs.target e.path = some (place e.path) ∧
      ((e.data = [] ∧ r.fs (place e.path) = none ∧
          (unpackEntry r e).fs = r.fs.put (place e.path) .dir) ∨
        e.data ≠ [] ∧ e.path.getLast? ≠ some slash ∧
          ((r.fs (place e.path) = none ∧
              (unpackEntry r e).fs = r.fs.put (place e.path) (.file e.data)) ∨
            ∃ content, r.fs (place e.path) = some (.file content) ∧
              (unpackEntry r e).fs = r.fs.put (place e.path) (.file (content ++ e.data)))) := by
  unfold unpackEntry at h ⊢
  by_cases hnil : e.data = []
  · rw [if_pos hnil] at h ⊢
    unfold makeDir at h ⊢
    split at h
    · rename_i fs' hmkdir
      obtain ⟨htarget, hnone, hfs⟩ := Fs.mkdir_some hmkdir
      exact ⟨h, htarget, .inl ⟨hnil, hnone, hfs⟩⟩
    · cases h
  · rw [if_neg hnil] at h ⊢
    unfold storeFile at h ⊢
    split at h
    · cases h
    · rename_i fs₁ fd hopen
      split at h
      · rename_i fs' hwrite
        have hboth : (r.fs.openAppend e.path).bind (fun o => o.1.write o.2 e.data) = some fs' := by
          rw [hopen]
          exact hwrite
        obtain ⟨hslash, htarget, hfs⟩ := Fs.append_some hboth
        exact ⟨h, htarget, .inr ⟨hnil, hslash, hfs⟩⟩
      · cases h

/-- A step changes only the entry's own place, which is no directory. -/
theorem unpackEntry_frame {e : Entry} (h : (unpackEntry r e).failed = false) :
    r.fs (place e.path) ≠ some .dir ∧
      ∀ p, p ≠ place e.path → (unpackEntry r e).fs p = r.fs p := by
  obtain ⟨-, -, ⟨-, hnone, hfs⟩ | ⟨-, -, ⟨hnone, hfs⟩ | ⟨content, hfile, hfs⟩⟩⟩ := unpackEntry_ok h
  · exact ⟨by simp [hnone], fun p hp => by rw [hfs, Fs.put_ne hp]⟩
  · exact ⟨by simp [hnone], fun p hp => by rw [hfs, Fs.put_ne hp]⟩
  · exact ⟨by simp [hfile], fun p hp => by rw [hfs, Fs.put_ne hp]⟩

theorem unpackEntry_keeps {e : Entry} (h : (unpackEntry r e).failed = false) :
    r.fs.Keeps (unpackEntry r e).fs := by
  obtain ⟨hdir, hframe⟩ := unpackEntry_frame h
  intro p hp
  have hne : p ≠ place e.path := by
    rintro rfl
    exact hdir hp
  rw [hframe p hne, hp]

/-- A failed call is not forgotten. -/
theorem unpack_failed (h : (es.foldl unpackEntry r).failed = false) : r.failed = false := by
  induction es generalizing r with
  | nil => exact h
  | cons e es ih => exact (unpackEntry_ok (ih h)).1

theorem unpack_keeps (h : (es.foldl unpackEntry r).failed = false) :
    r.fs.Keeps (es.foldl unpackEntry r).fs := by
  induction es generalizing r with
  | nil => exact fun p hp => hp
  | cons e es ih => exact (unpackEntry_keeps (unpack_failed h)).trans (ih h)

/-- The data of the entries whose names lead to `p`. -/
def contentAt (es : List Entry) (p : Place) : List UInt8 :=
  ((es.filter fun e => place e.path = p).map Entry.data).flatten

theorem contentAt_cons_self {e : Entry} :
    contentAt (e :: es) (place e.path) = e.data ++ contentAt es (place e.path) := by
  simp [contentAt]

theorem contentAt_cons_ne {e : Entry} {p : Place} (h : place e.path ≠ p) :
    contentAt (e :: es) p = contentAt es p := by
  simp [contentAt, h]

/-- What is unpacked over something is more of a file. -/
theorem unpack_over (h : (es.foldl unpackEntry r).failed = false) {p : Place} {node : Node}
    (hp : r.fs p = some node) {e : Entry} (he : e ∈ es) (hplace : place e.path = p) :
    node ≠ .dir ∧ e.data ≠ [] := by
  subst hplace
  induction es generalizing r node with
  | nil => cases he
  | cons d es ih =>
      rw [List.foldl_cons] at h
      have hd := unpack_failed h
      by_cases hplace : place d.path = place e.path
      · obtain ⟨-, -, ⟨-, hnone, -⟩ | ⟨hdata, -, ⟨hnone, -⟩ | ⟨content, hfile, hfs⟩⟩⟩ :=
          unpackEntry_ok hd
        · rw [hplace, hp] at hnone
          cases hnone
        · rw [hplace, hp] at hnone
          cases hnone
        · rw [hplace, hp] at hfile
          cases hfile
          refine ⟨by simp, ?_⟩
          rcases List.mem_cons.mp he with rfl | he
          · exact hdata
          · have hgrown : (unpackEntry r d).fs (place e.path) =
                some (.file (content ++ d.data)) := by
              rw [hfs, hplace, Fs.put_self]
            exact (ih h he hgrown).2
      · rcases List.mem_cons.mp he with rfl | he
        · exact absurd rfl hplace
        · apply ih h he
          rw [(unpackEntry_frame hd).2 _ (Ne.symm hplace), hp]

/-- A file only grows, by what is written to its place. -/
theorem unpack_file (h : (es.foldl unpackEntry r).failed = false) {p : Place}
    {content : List UInt8} (hp : r.fs p = some (.file content)) :
    (es.foldl unpackEntry r).fs p = some (.file (content ++ contentAt es p)) := by
  induction es generalizing r content with
  | nil => simpa [contentAt] using hp
  | cons e es ih =>
      rw [List.foldl_cons] at h ⊢
      have he := unpack_failed h
      by_cases hplace : place e.path = p
      · subst hplace
        obtain ⟨-, -, ⟨-, hnone, -⟩ | ⟨-, -, ⟨hnone, -⟩ | ⟨content', hfile, hfs⟩⟩⟩ :=
          unpackEntry_ok he
        · rw [hnone] at hp
          cases hp
        · rw [hnone] at hp
          cases hp
        · rw [hfile] at hp
          cases hp
          rw [contentAt_cons_self, ← List.append_assoc]
          apply ih h
          rw [hfs, Fs.put_self]
      · rw [contentAt_cons_ne hplace]
        apply ih h
        rw [(unpackEntry_frame he).2 p (Ne.symm hplace), hp]

/-- What is found at the place of an entry once all are unpacked. -/
theorem unpack_found (h : (es.foldl unpackEntry r).failed = false) {e : Entry} (he : e ∈ es)
    (hnew : r.fs (place e.path) = none) :
    (es.foldl unpackEntry r).fs (place e.path) =
      if e.data = [] then some .dir else some (.file (contentAt es (place e.path))) := by
  induction es generalizing r with
  | nil => cases he
  | cons d es ih =>
      rw [List.foldl_cons] at h ⊢
      have hd := unpack_failed h
      by_cases hplace : place d.path = place e.path
      · obtain ⟨-, -, ⟨hnil, -, hfs⟩ | ⟨hdata, -, ⟨-, hfs⟩ | ⟨content, hfile, -⟩⟩⟩ :=
          unpackEntry_ok hd
        · -- nothing else is unpacked there
          have hdir : (unpackEntry r d).fs (place e.path) = some .dir := by
            rw [hfs, hplace, Fs.put_self]
          rcases List.mem_cons.mp he with rfl | he
          · rw [if_pos hnil]
            exact unpack_keeps h _ hdir
          · exact absurd rfl (unpack_over h hdir he rfl).1
        · have hfile : (unpackEntry r d).fs (place e.path) = some (.file d.data) := by
            rw [hfs, hplace, Fs.put_self]
          have hsome : e.data ≠ [] := by
            rcases List.mem_cons.mp he with rfl | he
            · exact hdata
            · exact (unpack_over h hfile he rfl).2
          rw [if_neg hsome, ← hplace, contentAt_cons_self, hplace]
          exact unpack_file h hfile
        · rw [hplace, hnew] at hfile
          cases hfile
      · rcases List.mem_cons.mp he with rfl | he
        · exact absurd rfl hplace
        · rw [contentAt_cons_ne hplace]
          apply ih h he
          rw [(unpackEntry_frame hd).2 _ (Ne.symm hplace), hnew]

theorem unpack_target (h : (es.foldl unpackEntry r).failed = false) {e : Entry} (he : e ∈ es) :
    (es.foldl unpackEntry r).fs.target e.path = some (place e.path) ∧
      (e.data ≠ [] → e.path.getLast? ≠ some slash) := by
  induction es generalizing r with
  | nil => cases he
  | cons d es ih =>
      rw [List.foldl_cons] at h ⊢
      rcases List.mem_cons.mp he with rfl | he
      · have hd := unpack_failed h
        obtain ⟨-, htarget, hmade⟩ := unpackEntry_ok hd
        refine ⟨((unpackEntry_keeps hd).trans (unpack_keeps h)).target htarget, ?_⟩
        intro hdata
        rcases hmade with ⟨hnil, -⟩ | ⟨-, hslash, -⟩
        · exact absurd hnil hdata
        · exact hslash
      · exact ih h he

/-- What is found under the name of an entry, from an empty file system on. -/
theorem unpack_stat (hr : r.fs = Fs.empty) (h : (es.foldl unpackEntry r).failed = false)
    {e : Entry} (he : e ∈ es) :
    (es.foldl unpackEntry r).fs.stat e.path =
      if e.data = [] then some .dir else some (.file (contentAt es (place e.path))) := by
  have hnew : r.fs (place e.path) = none := by
    cases hp : r.fs (place e.path) with
    | none => rfl
    | some node =>
        -- only the root is there, and nothing is unpacked over it
        have hnode : node = .dir := by
          rw [hr] at hp
          unfold Fs.empty at hp
          split at hp
          · exact (Option.some.inj hp).symm
          · cases hp
        exact absurd hnode (unpack_over h hp he rfl).1
  obtain ⟨htarget, hslash⟩ := unpack_target h he
  rw [Fs.stat_eq htarget]
  · exact unpack_found h he hnew
  · intro hends
    rw [unpack_found h he hnew, if_pos]
    by_contra hdata
    exact hslash hdata hends

theorem contentAt_nil {p : Place} (h : ∀ e ∈ es, place e.path = p → e.data = []) :
    contentAt es p = [] := by
  apply List.flatten_eq_nil_iff.mpr
  intro data hdata
  obtain ⟨e, he, rfl⟩ := List.mem_map.mp hdata
  obtain ⟨hmem, hplace⟩ := List.mem_filter.mp he
  exact h e hmem (of_decide_eq_true hplace)

/-- Alone at its place, a file has its own data. -/
theorem contentAt_alone (hlegal : ∀ e ∈ es, e.Legal)
    (halone : es.Pairwise fun d e => d.isReg → e.isReg → place d.path ≠ place e.path)
    {e : Entry} (he : e ∈ es) (hreg : e.isReg) : contentAt es (place e.path) = e.data := by
  induction es with
  | nil => cases he
  | cons d es ih =>
      obtain ⟨hfirst, halone⟩ := List.pairwise_cons.mp halone
      have hlater : ∀ d ∈ es, d.Legal := fun d hd => hlegal d (List.mem_cons_of_mem _ hd)
      rcases List.mem_cons.mp he with rfl | he
      · have hrest : contentAt es (place e.path) = [] := by
          apply contentAt_nil
          intro d hd hplace
          rcases (hlater d hd).kind with hdir | hfile
          · exact (hlater d hd).bare hdir
          · exact absurd hplace.symm (hfirst d hd hreg hfile)
        rw [contentAt_cons_self, hrest, List.append_nil]
      · by_cases hplace : place d.path = place e.path
        · have hd := hlegal d List.mem_cons_self
          have hdata : d.data = [] := by
            rcases hd.kind with hdir | hfile
            · exact hd.bare hdir
            · exact absurd hplace (hfirst e he hfile hreg)
          rw [← hplace, contentAt_cons_self, hdata, hplace]
          exact ih hlater halone he
        · rw [contentAt_cons_ne hplace]
          exact ih hlater halone he

/-- Two entries that lead to one place both end up there. -/
theorem contentAt_two {d e : Entry} (h : [d, e].Sublist es) (hplace : place d.path = place e.path) :
    d.data.length + e.data.length ≤ (contentAt es (place e.path)).length := by
  have htwo : (d.data ++ e.data).Sublist (contentAt es (place e.path)) := by
    have hfilter := h.filter fun x => decide (place x.path = place e.path)
    have hsub := (hfilter.map Entry.data).flatten
    simpa [hplace, contentAt] using hsub
  simpa using htwo.length_le

end Unpacking

/-! ### Two archives in memory -/

/-- Eight hexadecimal digits. -/
def hexField (n : ℕ) : List UInt8 :=
  (List.range 8).reverse.map fun i =>
    let d := n / 16 ^ i % 16
    UInt8.ofNat (if d < 10 then 48 + d else 97 + (d - 10))

/-- A header whose other fields are zero, with the name. -/
def headerBytes (mode size : ℕ) (name : List UInt8) : List UInt8 :=
  headerMagic ++ hexField 0 ++ hexField mode ++ (List.replicate 4 (hexField 0)).flatten ++
    hexField size ++ (List.replicate 4 (hexField 0)).flatten ++ hexField (name.length + 1) ++
    hexField 0 ++ name ++ [0]

def pad4 (bytes : List UInt8) : List UInt8 :=
  bytes ++ List.replicate (align4 bytes.length - bytes.length) 0

def archiveBytes (es : List Entry) : List UInt8 :=
  es.flatMap (fun e => pad4 (pad4 (headerBytes e.mode e.data.length e.name) ++ e.data)) ++
    headerBytes 0 0 footerMagic

/-- Memory with the archive of `es` at `0x1000`. -/
def archiveMem (es : List Entry) : Mem := fun a => (archiveBytes es).getD (a.toNat - 0x1000) 0

/-- The directory `www` and in it the file `a`, which has two bytes. -/
def wwwEntries : List Entry :=
  [⟨0x41ED, [119, 119, 119], []⟩, ⟨0x81A4, [119, 119, 119, 47, 97], [104, 105]⟩]

/-- The empty regular file `log`. -/
def logEntries : List Entry := [⟨0x81A4, [108, 111, 103], []⟩]

theorem wwwEntries_archive : Archive (archiveMem wwwEntries) 0x1000 0 wwwEntries := by
  refine ⟨⟨?_, ?_, ?_, ?_, ?_⟩, ?_, ⟨?_, ?_, ?_, ?_, ?_⟩, ?_, ⟨0, ⟨?_, ?_, ?_, ?_, ?_⟩⟩, ?_⟩ <;>
    decide +kernel

theorem wwwEntries_legal : ∀ e ∈ wwwEntries, e.Legal := by
  intro e he
  rcases List.mem_pair.mp he with rfl | rfl
  · constructor <;> decide
  · constructor <;> decide

theorem logEntries_archive : Archive (archiveMem logEntries) 0x1000 0 logEntries := by
  refine ⟨⟨?_, ?_, ?_, ?_, ?_⟩, ?_, ⟨0, ⟨?_, ?_, ?_, ?_, ?_⟩⟩, ?_⟩ <;> decide +kernel

theorem logEntries_legal : ∀ e ∈ logEntries, e.Legal := by
  intro e he
  obtain rfl := List.mem_singleton.mp he
  constructor <;> decide

/-! ## §6  The root file system -/

/-- **The archive in the file system.** `copy_cpio` returns on every archive of
directories and regular files. If no call has failed, every entry is there with
its kind and content exactly when no regular file is empty and no two lead to
one place: an entry without data is taken for a directory, and files are opened
to append. -/
theorem root_unpacked_iff {mem : Mem} {archive : UInt64} {es : List Entry} {fuel : ℕ}
    (haligned : 4 ∣ archive.toNat) (harchive : Archive mem archive.toNat 0 es)
    (hlegal : ∀ e ∈ es, e.Legal) (hnames : (es.map Entry.name).Nodup) (hfuel : es.length < fuel) :
    ∃ r, copyCpio mem archive fuel Fs.empty = .done r ∧
      (r.failed = false →
        (Unpacked r.fs es ↔
          (∀ e ∈ es, e.isReg → e.data ≠ []) ∧
            es.Pairwise fun d e => d.isReg → e.isReg → place d.path ≠ place e.path)) := by
  refine ⟨_, copyCpio_eq _ haligned harchive hlegal hnames hfuel, fun hok => ?_⟩
  have hstat {e : Entry} (he : e ∈ es) := unpack_stat rfl hok he
  constructor
  · intro hall
    have hcontent {e : Entry} (he : e ∈ es) (hreg : e.isReg) :
        e.data ≠ [] ∧ contentAt es (place e.path) = e.data := by
      have hfile := (hall e he).2 hreg
      rw [hstat he] at hfile
      split at hfile
      · cases hfile
      · rename_i hdata
        exact ⟨hdata, Node.file.inj (Option.some.inj hfile)⟩
    refine ⟨fun e he hreg => (hcontent he hreg).1, ?_⟩
    apply List.pairwise_iff_forall_sublist.mpr
    intro d e hsub hd he hplace
    have hmem : d ∈ es := hsub.subset List.mem_cons_self
    have hmem' : e ∈ es := hsub.subset (List.mem_cons_of_mem d List.mem_cons_self)
    have hlength := contentAt_two hsub hplace
    rw [(hcontent hmem' he).2] at hlength
    have hpos := List.length_pos_iff.mpr (hcontent hmem hd).1
    omega
  · rintro ⟨hfull, halone⟩ e he
    refine ⟨fun hdir => ?_, fun hreg => ?_⟩
    · rw [hstat he, if_pos ((hlegal e he).bare hdir)]
    · rw [hstat he, if_neg (hfull e he hreg), contentAt_alone hlegal halone he hreg]

theorem www_unpacked :
    ∃ r, copyCpio (archiveMem wwwEntries) 0x1000 3 Fs.empty = .done r ∧ r.failed = false ∧
      Unpacked r.fs wwwEntries := by
  obtain ⟨r, hrun, hiff⟩ := root_unpacked_iff (show 4 ∣ (0x1000 : UInt64).toNat by decide)
    wwwEntries_archive wwwEntries_legal (by decide) (show wwwEntries.length < 3 by decide)
  have hfold := copyCpio_eq Fs.empty (show 4 ∣ (0x1000 : UInt64).toNat by decide)
    wwwEntries_archive wwwEntries_legal (by decide) (show wwwEntries.length < 3 by decide)
  have hok : r.failed = false := by
    rw [hfold] at hrun
    cases hrun
    decide +kernel
  exact ⟨r, hrun, hok, (hiff hok).mpr ⟨by decide, by decide +kernel⟩⟩

/-- An empty regular file, and every call succeeds: what is there is a
directory. -/
theorem empty_file_becomes_directory :
    Archive (archiveMem logEntries) 0x1000 0 logEntries ∧ (∀ e ∈ logEntries, e.Legal) ∧
      ∃ r, copyCpio (archiveMem logEntries) 0x1000 2 Fs.empty = .done r ∧ r.failed = false ∧
        (∀ e ∈ logEntries, e.isReg ∧ r.fs.stat e.path = some .dir) ∧
        ¬ Unpacked r.fs logEntries := by
  refine ⟨logEntries_archive, logEntries_legal, _,
    copyCpio_eq _ (show 4 ∣ (0x1000 : UInt64).toNat by decide) logEntries_archive logEntries_legal
      (by decide) (by decide), ?_, ?_, ?_⟩ <;>
    decide +kernel

end Cpio

end CubicleOS
