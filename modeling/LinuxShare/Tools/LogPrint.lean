-- SUMMARY: The file name in a line of the log (tools.c): which part of the path it is.
import LinuxShare.Lib.CInt
import Mathlib.Data.List.DropRight

/-!
# common_log_print

A path is searched from its end for a slash and, only if there is none, for a backslash;
the line shows what stands behind. A backslash behind the last slash belongs to the name.
The line is cut at the size of its buffer. A string is the list of its bytes, without the
terminator.
-/

namespace Tools

/-! ## The functions -/

/-- The loop over `i`, which has come down to `n - 1`. -/
def scanBack (str : List UInt8) (ch : UInt8) : Nat → Int
  | 0 => -2
  | i + 1 => if str[i]? = some ch then i else scanBack str ch i

/-- The length is an `int`. -/
def logStrFindLastCh (str : Option (List UInt8)) (revrIndex : Nat) (ch : UInt8) : Int :=
  match str with
  | none => -1
  | some str =>
    let len := CInt.toInt str.length
    if revrIndex ≥ len then -1 else scanBack str ch (len - revrIndex).toNat

def slash : UInt8 := 47

def backslash : UInt8 := 92

/-- The bytes of a literal. -/
def lit (s : String) : List UInt8 := s.toList.map fun c => UInt8.ofNat c.toNat

def pTmpFilename (file : Option (List UInt8)) : List UInt8 :=
  match file with
  | none => lit "Null"
  | some path =>
    let pos := logStrFindLastCh file 0 slash
    if pos < 0 then
      let pos := logStrFindLastCh file 0 backslash
      if pos ≥ 0 then path.drop (pos + 1).toNat else path
    else
      path.drop (pos + 1).toNat

/-- `MAX_LOG_LENGTH` -/
def maxLogLength : Nat := 1024

/-- What `snprintf` leaves of a text in a buffer of `MAX_LOG_LENGTH` bytes. -/
def fitted (text : List UInt8) : List UInt8 := text.take (maxLogLength - 1)

/-- What stands behind the file name. `%d` shows the line number as an `int`. -/
def afterName (func : List UInt8) (line : UInt32) (message : List UInt8) : List UInt8 :=
  lit "]:[" ++ func ++ lit ":" ++ lit (toString (CInt.toInt line.toNat)) ++ lit "]:" ++ fitted message

/-- The result and what is printed. `message` is what the format and its arguments amount to. -/
def commonLogPrint (flagStr : List UInt8) (file : Option (List UInt8)) (func : List UInt8)
    (line : UInt32) (message : List UInt8) : Int × List UInt8 :=
  let strAll := fitted (flagStr ++ lit ":[" ++ pTmpFilename file ++ afterName func line message)
  (0, strAll ++ lit "\n")

/-! ## Searching from the end -/

/-- `r` is the greatest index of `ch` that is at least `rev` before the last one, or it says
why there is none. -/
inductive Finds (str : List UInt8) (rev : Nat) (ch : UInt8) : Int → Prop where
  | found (i : Nat) (hin : i + rev < str.length) (hch : str[i]? = some ch)
      (hlast : ∀ j, i < j → j + rev < str.length → str[j]? ≠ some ch) : Finds str rev ch i
  | tooFar (hrev : str.length ≤ rev) : Finds str rev ch (-1)
  | absent (hrev : rev < str.length)
      (hnone : ∀ j, j + rev < str.length → str[j]? ≠ some ch) : Finds str rev ch (-2)

variable {str path name : List UInt8} {ch : UInt8} {n : Nat}

/-- The loop stops at the last occurrence below `n`, or finds none there. -/
theorem scanBack_cases (str : List UInt8) (ch : UInt8) (n : Nat) :
    (∃ i < n, scanBack str ch n = i ∧ str[i]? = some ch ∧
      ∀ j, i < j → j < n → str[j]? ≠ some ch) ∨
    scanBack str ch n = -2 ∧ ∀ j < n, str[j]? ≠ some ch := by
  induction n with
  | zero => exact .inr ⟨rfl, fun j hj => absurd hj (Nat.not_lt_zero j)⟩
  | succ n ih =>
      by_cases hn : str[n]? = some ch
      · exact .inl ⟨n, Nat.lt_succ_self n, if_pos hn, hn, fun j hlo hhi => by omega⟩
      · have hstep : scanBack str ch (n + 1) = scanBack str ch n := if_neg hn
        have hbelow : ∀ j, j < n + 1 → ¬ j < n → str[j]? ≠ some ch := by
          intro j hj hge
          obtain rfl : j = n := by omega
          exact hn
        rw [hstep]
        rcases ih with ⟨i, hi, hscan, hch, hlast⟩ | ⟨hscan, hnone⟩
        · refine .inl ⟨i, hi.trans (Nat.lt_succ_self n), hscan, hch, fun j hlo hhi => ?_⟩
          by_cases hj : j < n
          · exact hlast j hlo hj
          · exact hbelow j hhi hj
        · refine .inr ⟨hscan, fun j hhi => ?_⟩
          by_cases hj : j < n
          · exact hnone j hj
          · exact hbelow j hhi hj

theorem logStrFindLastCh_finds (hlen : str.length < 2 ^ 31) (rev : Nat) (ch : UInt8) :
    Finds str rev ch (logStrFindLastCh (some str) rev ch) := by
  have hint : CInt.toInt str.length = str.length :=
    CInt.toInt_of_isInt ⟨by omega, by omega⟩
  simp only [logStrFindLastCh, hint]
  by_cases hrev : str.length ≤ rev
  · rw [if_pos (by omega)]
    exact .tooFar hrev
  · have hsub : ((str.length : Int) - rev).toNat = str.length - rev := by omega
    rw [if_neg (by omega), hsub]
    rcases scanBack_cases str ch (str.length - rev) with ⟨i, hi, hscan, hch, hlast⟩ | ⟨hscan, hnone⟩
    · rw [hscan]
      exact .found i (by omega) hch fun j hlo hhi => hlast j hlo (by omega)
    · rw [hscan]
      exact .absent (by omega) fun j hj => hnone j (by omega)

/-! ## Names -/

/-- What stands behind the last slash, in a path without slashes behind the last backslash,
and otherwise all. -/
inductive BaseName : List UInt8 → List UInt8 → Prop where
  | slash (dir name : List UInt8) (h : slash ∉ name) : BaseName (dir ++ slash :: name) name
  | backslash (dir name : List UInt8) (hslash : slash ∉ dir ++ backslash :: name)
      (h : backslash ∉ name) : BaseName (dir ++ backslash :: name) name
  | whole (path : List UInt8) (hslash : slash ∉ path) (h : backslash ∉ path) : BaseName path path

/-- What stands behind the last separator of either kind. -/
def behindSeparators (path : List UInt8) : List UInt8 :=
  path.rtakeWhile fun b => b != slash && b != backslash

/-- A search that succeeds splits the path at its last occurrence. -/
theorem Finds.split {r : Int} (h : Finds str 0 ch r) (hr : 0 ≤ r) :
    ∃ dir, str = dir ++ ch :: str.drop (r + 1).toNat ∧ ch ∉ str.drop (r + 1).toNat := by
  cases h with
  | found i hin hch hlast =>
      have hi : i < str.length := by omega
      have hsucc : ((i : Int) + 1).toNat = i + 1 := by omega
      rw [hsucc]
      refine ⟨str.take i, ?_, fun hmem => ?_⟩
      · have hget : str[i] = ch := by simpa [hi] using hch
        rw [← hget, List.getElem_cons_drop, List.take_append_drop]
      · obtain ⟨k, hk, hget⟩ := List.mem_iff_getElem.mp hmem
        rw [List.getElem_drop] at hget
        rw [List.length_drop] at hk
        exact hlast (i + 1 + k) (by omega) (by omega) (by rw [← hget, List.getElem?_eq_getElem])
  | tooFar _ => omega
  | absent _ _ => omega

/-- A search that fails has found nothing. -/
theorem Finds.notMem {r : Int} (h : Finds str 0 ch r) (hr : r < 0) : ch ∉ str := by
  cases h with
  | found i _ _ _ => omega
  | tooFar hrev =>
      rw [List.eq_nil_of_length_eq_zero (Nat.le_zero.mp hrev)]
      exact List.not_mem_nil
  | absent _ hnone =>
      intro hmem
      obtain ⟨k, hk, hget⟩ := List.mem_iff_getElem.mp hmem
      exact hnone k hk (by rw [← hget, List.getElem?_eq_getElem])

theorem baseName_pTmpFilename (hlen : path.length < 2 ^ 31) :
    BaseName path (pTmpFilename (some path)) := by
  have hslash := logStrFindLastCh_finds hlen 0 slash
  have hbackslash := logStrFindLastCh_finds hlen 0 backslash
  rw [pTmpFilename]
  by_cases hs : logStrFindLastCh (some path) 0 slash < 0
  · have hnone : slash ∉ path := hslash.notMem hs
    rw [if_pos hs]
    by_cases hb : logStrFindLastCh (some path) 0 backslash ≥ 0
    · obtain ⟨dir, hpath, hname⟩ := hbackslash.split hb
      rw [if_pos hb]
      have hbase := BaseName.backslash dir _ (hpath ▸ hnone) hname
      rwa [← hpath] at hbase
    · rw [if_neg hb]
      exact .whole path hnone (hbackslash.notMem (Int.not_le.mp hb))
  · obtain ⟨dir, hpath, hname⟩ := hslash.split (Int.not_lt.mp hs)
    rw [if_neg hs]
    have hbase := BaseName.slash dir _ hname
    rwa [← hpath] at hbase

theorem BaseName.suffix (h : BaseName path name) : name <:+ path := by
  cases h with
  | slash dir _ _ => exact ⟨dir ++ [Tools.slash], by simp⟩
  | backslash dir _ _ _ => exact ⟨dir ++ [Tools.backslash], by simp⟩
  | whole _ _ _ => exact List.suffix_rfl

/-- What stands behind a separator, when it holds none itself. -/
theorem behindSeparators_append_cons {dir : List UInt8} {c : UInt8} (hc : c = slash ∨ c = backslash)
    (hs : slash ∉ name) (hb : backslash ∉ name) : behindSeparators (dir ++ c :: name) = name := by
  have hall : ∀ b ∈ name.reverse, (b != slash && b != backslash) = true := by
    intro b hmem
    have hmem := List.mem_reverse.mp hmem
    rw [Bool.and_eq_true, bne_iff_ne, bne_iff_ne]
    exact ⟨fun heq => hs (heq ▸ hmem), fun heq => hb (heq ▸ hmem)⟩
  have hstop : (c != slash && c != backslash) = false := by
    rcases hc with rfl | rfl <;> decide
  rw [behindSeparators, List.rtakeWhile, List.reverse_append, List.reverse_cons, List.append_assoc,
    List.takeWhile_append_of_pos hall, List.singleton_append, List.takeWhile_cons, hstop]
  simp

theorem notMem_behindSeparators (path : List UInt8) :
    slash ∉ behindSeparators path ∧ backslash ∉ behindSeparators path := by
  constructor <;> intro hmem <;> simpa using List.mem_rtakeWhile_imp hmem

/-- The name is what stands behind the last separator of either kind, unless a backslash
comes behind the last slash. -/
theorem BaseName.eq_behindSeparators_iff (h : BaseName path name) :
    name = behindSeparators path ↔ (Tools.slash ∈ path → Tools.backslash ∉ name) := by
  cases h with
  | slash dir _ hs =>
      constructor
      · intro heq _
        rw [heq]
        exact (notMem_behindSeparators _).2
      · intro hb
        exact (behindSeparators_append_cons (.inl rfl) hs (hb (by simp))).symm
  | backslash dir _ hslash hb =>
      have hs : Tools.slash ∉ name := fun hmem => hslash (by simp [hmem])
      exact iff_of_true (behindSeparators_append_cons (.inr rfl) hs hb).symm
        fun hmem => absurd hmem hslash
  | whole _ hs hb =>
      refine iff_of_true ?_ fun hmem => absurd hmem hs
      symm
      rw [behindSeparators, List.rtakeWhile_eq_self_iff]
      intro b hmem
      rw [Bool.and_eq_true, bne_iff_ne, bne_iff_ne]
      exact ⟨fun heq => hs (heq ▸ hmem), fun heq => hb (heq ▸ hmem)⟩

/-- For every path of a length that an `int` can hold: the search finds the last occurrence
of every character from every offset on, and the line shows, as far as it goes, the name. -/
theorem commonLogPrint_baseName (flagStr path func : List UInt8) (line : UInt32) (message : List UInt8)
    (hlen : path.length < 2 ^ 31) :
    (∀ rev ch, Finds path rev ch (logStrFindLastCh (some path) rev ch)) ∧
    ∃ name, BaseName path name ∧ name <:+ path ∧
      (name = behindSeparators path ↔ (slash ∈ path → backslash ∉ name)) ∧
      commonLogPrint flagStr (some path) func line message =
        (0, fitted (flagStr ++ lit ":[" ++ name ++ afterName func line message) ++ lit "\n") := by
  have hbase := baseName_pTmpFilename hlen
  exact ⟨logStrFindLastCh_finds hlen, pTmpFilename (some path), hbase, hbase.suffix,
    hbase.eq_behindSeparators_iff, rfl⟩

theorem commonLogPrint_srcMain :
    (∀ rev ch, Finds (lit "src/main.c") rev ch (logStrFindLastCh (some (lit "src/main.c")) rev ch)) ∧
    ∃ name, BaseName (lit "src/main.c") name ∧ name <:+ lit "src/main.c" ∧
      (name = behindSeparators (lit "src/main.c") ↔ (slash ∈ lit "src/main.c" → backslash ∉ name)) ∧
      commonLogPrint (lit "ERR") (some (lit "src/main.c")) (lit "main") 7 (lit "x") =
        (0, fitted (lit "ERR" ++ lit ":[" ++ name ++ afterName (lit "main") 7 (lit "x")) ++ lit "\n") :=
  commonLogPrint_baseName (lit "ERR") (lit "src/main.c") (lit "main") 7 (lit "x") (by decide)

/-! ## Where the line shows something else -/

/-- A length that turns negative. -/
theorem pTmpFilename_of_two_pow (h : path.length = 2 ^ 31) : pTmpFilename (some path) = path := by
  have hint : ((0 : Nat) : Int) ≥ CInt.toInt path.length := by
    simp only [CInt.toInt, Int.bmod]
    split <;> omega
  have hfail : ∀ ch, logStrFindLastCh (some path) 0 ch = -1 := by
    intro ch
    simp only [logStrFindLastCh]
    rw [if_pos hint]
  rw [pTmpFilename, hfail, hfail]
  rfl

theorem length_fitted_le (text : List UInt8) : (fitted text).length ≤ 1023 := by
  rw [fitted, List.length_take]
  exact Nat.min_le_left _ _

/-- A backslash behind the last slash, a length that is no `int`, and a name that does not fit. -/
theorem name_with_separator :
    pTmpFilename (some (lit "d/a\\b")) = lit "a\\b" ∧ behindSeparators (lit "d/a\\b") = lit "b" ∧
    slash ∈ pTmpFilename (some (List.replicate (2 ^ 31) slash)) ∧
    ¬ List.replicate 1100 97 <:+: (commonLogPrint [] (some (List.replicate 1100 97)) [] 1 []).2 := by
  refine ⟨by decide, by decide, ?_, fun hinfix => ?_⟩
  · rw [pTmpFilename_of_two_pow List.length_replicate, List.mem_replicate]
    exact ⟨by decide, rfl⟩
  · have hle := hinfix.length_le
    rw [List.length_replicate, commonLogPrint, List.length_append] at hle
    have hfit := length_fitted_le ([] ++ lit ":[" ++ pTmpFilename (some (List.replicate 1100 97)) ++
      afterName [] 1 [])
    have hend : (lit "\n").length = 1 := rfl
    omega

end Tools
