import DispatchTree.Code.Fragment
import DispatchTree.Proofs.Scanning
/-! Thresholds read back.
Every spelling of a threshold is a single token, a numeral for a length and a character literal
otherwise, and the number can be recovered from that token.  Nothing is assumed of the number: codes
of quotes, backslashes and control characters have a spelling, and so have codes of no character. -/
namespace DispatchTree
open Text

namespace Text

theorem hexValue?_digitChar : ∀ d < 16, hexValue? (Nat.digitChar d) = some d := by decide

theorem readHexFrom_append (read : Nat) (front back : List Char) :
    readHexFrom read (front ++ back) = (readHexFrom read front).bind (readHexFrom · back) := by
  induction front generalizing read with
  | nil => simp [readHexFrom]
  | cons c rest ih =>
    cases hc : hexValue? c with
    | none => simp [readHexFrom, hc]
    | some digit => simp [readHexFrom, hc, ih]

theorem toDigits_sixteen (n : Nat) : Nat.toDigits 16 n =
    (if n < 16 then [] else Nat.toDigits 16 (n / 16)) ++ [Nat.digitChar (n % 16)] := by
  rw [Nat.toDigits_eq_if (by decide)]
  split
  · rw [Nat.mod_eq_of_lt ‹_›]
    rfl
  · rfl

theorem readHexFrom_toDigits (n : Nat) : readHexFrom 0 (Nat.toDigits 16 n) = some n := by
  induction n using Nat.strongRecOn with
  | ind n ih =>
    have hd := hexValue?_digitChar (n % 16) (Nat.mod_lt n (by decide))
    rw [toDigits_sixteen, readHexFrom_append]
    split
    · simp only [readHexFrom, hd, Option.bind_some]
      congr 1
      omega
    · rw [ih (n / 16) (by omega)]
      simp only [readHexFrom, hd, Option.bind_some]
      congr 1
      omega

theorem hexDigits_ne_nil (n : Nat) : hexDigits n ≠ [] := by
  by_cases h : n < 16
  · simp [hexDigits, h]
  · simp [hexDigits, h]

theorem readHex_hexDigits (n : Nat) : readHex (hexDigits n) = some n := by
  have hz : hexValue? '0' = some 0 := by decide
  have hn := readHexFrom_toDigits n
  rw [readHex, if_neg (hexDigits_ne_nil n), hexDigits]
  split
  · simpa only [readHexFrom, hz] using hn
  · exact hn

theorem mem_toDigits_sixteen {n : Nat} {c : Char} (h : c ∈ Nat.toDigits 16 n) :
    ∃ d < 16, c = Nat.digitChar d := by
  induction n using Nat.strongRecOn with
  | ind n ih =>
    rw [toDigits_sixteen] at h
    rcases List.mem_append.mp h with h | h
    · split at h
      · cases h
      · exact ih (n / 16) (by omega) h
    · exact ⟨n % 16, Nat.mod_lt n (by decide), List.mem_singleton.mp h⟩

theorem ne_quote_of_mem_hexDigits {n : Nat} {c : Char} (h : c ∈ hexDigits n) :
    c ≠ '\'' ∧ c ≠ '\\' := by
  have digits : ∀ d < 16, Nat.digitChar d ≠ '\'' ∧ Nat.digitChar d ≠ '\\' := by decide
  have hc : c = '0' ∨ c ∈ Nat.toDigits 16 n := by
    unfold hexDigits at h
    split at h
    · exact List.mem_cons.mp h
    · exact Or.inr h
  rcases hc with rfl | hc
  · decide
  · obtain ⟨d, hd, rfl⟩ := mem_toDigits_sixteen hc
    exact digits d hd

theorem isIdentifierRest_of_mem_toDigits {n : Nat} {c : Char} (h : c ∈ Nat.toDigits 10 n) :
    isIdentifierRest c = true := by
  have hc := Nat.isDigit_of_mem_toDigits (by decide) (by decide) h
  simp [isIdentifierRest, Char.isAlphanum, hc]

end Text

/-- What stands between the quotes of a character literal. -/
def charContent (code : Nat) : List Char :=
  if code = 39 then ['\\', '\'']
  else if code = 92 then ['\\', '\\']
  else if 32 ≤ code ∧ code ≤ 126 then [Char.ofNat code]
  else '\\' :: 'x' :: hexDigits code

theorem toList_charLiteral (code : Nat) :
    (charLiteral code).toList = '\'' :: (charContent code ++ ['\'']) := by
  by_cases hq : code = 39
  · rw [charLiteral, charContent, if_pos hq, if_pos hq]
    rfl
  by_cases hb : code = 92
  · rw [charLiteral, charContent, if_neg hq, if_neg hq, if_pos hb, if_pos hb]
    rfl
  by_cases hp : 32 ≤ code ∧ code ≤ 126
  · simp [charLiteral, charContent, hq, hb, hp]
  · simp [charLiteral, charContent, hq, hb, hp]

theorem toNat_ofNat_of_printable {code : Nat} (h : 32 ≤ code ∧ code ≤ 126) :
    (Char.ofNat code).toNat = code := by
  have hv : code.isValidChar := Or.inl (by omega)
  rw [Char.ofNat, dif_pos hv]
  rfl

theorem ne_quote_of_printable {code : Nat} (h : 32 ≤ code ∧ code ≤ 126) (hq : code ≠ 39)
    (hb : code ≠ 92) : Char.ofNat code ≠ '\'' ∧ Char.ofNat code ≠ '\\' := by
  have hc := toNat_ofNat_of_printable h
  constructor
  · intro he
    rw [he] at hc
    exact hq hc.symm
  · intro he
    rw [he] at hc
    exact hb hc.symm

/-- The four spellings of a code: the two characters that need a backslash, a printable character,
and a hexadecimal numeral. -/
theorem charContent_cases {motive : Nat → List Char → Prop} (quote : motive 39 ['\\', '\''])
    (backslash : motive 92 ['\\', '\\'])
    (plain : ∀ c : Char, c ≠ '\'' → c ≠ '\\' → motive c.toNat [c])
    (numeral : ∀ code, motive code ('\\' :: 'x' :: hexDigits code)) (code : Nat) :
    motive code (charContent code) := by
  by_cases hq : code = 39
  · rw [charContent, if_pos hq, hq]
    exact quote
  by_cases hb : code = 92
  · rw [charContent, if_neg hq, if_pos hb, hb]
    exact backslash
  by_cases hp : 32 ≤ code ∧ code ≤ 126
  · rw [charContent, if_neg hq, if_neg hb, if_pos hp]
    have hne := ne_quote_of_printable hp hq hb
    have hplain := plain (Char.ofNat code) hne.1 hne.2
    rwa [toNat_ofNat_of_printable hp] at hplain
  · rw [charContent, if_neg hq, if_neg hb, if_neg hp]
    exact numeral code

theorem readCharContent_escaped {digits : List Char} (h : digits ≠ []) :
    readCharContent ('\\' :: 'x' :: digits) = readHex digits := by
  cases digits with
  | nil => exact absurd rfl h
  | cons c rest => simp [readCharContent]

theorem readCharContent_singleton {c : Char} (hq : c ≠ '\'') (hb : c ≠ '\\') :
    readCharContent [c] = some c.toNat := if_neg (not_or.mpr ⟨hq, hb⟩)

theorem readCharContent_charContent (code : Nat) :
    readCharContent (charContent code) = some code := by
  refine charContent_cases (motive := fun code content => readCharContent content = some code)
    rfl rfl ?_ ?_ code
  · intro c hq hb
    exact readCharContent_singleton hq hb
  · intro code
    rw [readCharContent_escaped (hexDigits_ne_nil code), readHex_hexDigits]

namespace Token

theorem Scans.plainChars (read : List Char) {text : List Char}
    (h : ∀ c ∈ text, c ≠ '\'' ∧ c ≠ '\\') :
    Scans (.char read) text [] (.char (read ++ text)) := by
  induction text generalizing read with
  | nil => simpa using Scans.nil _
  | cons c rest ih =>
    have hne := h c (List.mem_cons_self ..)
    have hc : advance (.char read) c = some ([], .char (read ++ [c])) := by
      simp [advance, hne.1, hne.2]
    have hr := ih (read ++ [c]) fun d hd => h d (List.mem_cons_of_mem _ hd)
    simpa using Scans.step hc hr

theorem Scans.escaped (read : List Char) (c : Char) :
    Scans (.char read) ['\\', c] [] (.char (read ++ ['\\', c])) := by
  have hb : advance (.char read) '\\' = some ([], .escape (read ++ ['\\'])) := by simp [advance]
  have hc : advance (.escape (read ++ ['\\'])) c = some ([], .char (read ++ ['\\'] ++ [c])) := rfl
  simpa using Scans.step hb (.step hc (.nil _))

theorem scans_charContent (code : Nat) :
    Scans (.char []) (charContent code) [] (.char (charContent code)) := by
  refine charContent_cases (motive := fun _ content => Scans (.char []) content [] (.char content))
    (.escaped [] '\'') (.escaped [] '\\') ?_ ?_ code
  · intro c hq hb
    apply Scans.plainChars []
    intro d hd
    rw [List.mem_singleton.mp hd]
    exact ⟨hq, hb⟩
  · intro code
    have hx := Scans.escaped [] 'x'
    exact hx.append (.plainChars _ fun c hc => ne_quote_of_mem_hexDigits hc)

theorem scans_charLiteral (code : Nat) :
    Scans .between (charLiteral code).toList [.char (charContent code)] .between := by
  have hopen : advance .between '\'' = some ([], .char []) := by decide
  have hclose : advance (.char (charContent code)) '\'' =
      some ([.char (charContent code)], .between) := by simp [advance]
  rw [toList_charLiteral]
  exact .step hopen ((scans_charContent code).append (.cons hclose (.nil _)))

end Token

namespace Feature

def boundToken (f : Feature) (threshold : Nat) : Token :=
  if f.readsChar then .char (charContent threshold) else .lexeme (Nat.toDigits 10 threshold)

theorem thresholdOf?_boundToken (f : Feature) (threshold : Nat) :
    Fragment.thresholdOf? f (f.boundToken threshold) = some threshold := by
  cases hf : f.readsChar with
  | true => simp [boundToken, Fragment.thresholdOf?, hf, readCharContent_charContent]
  | false => simp [boundToken, Fragment.thresholdOf?, hf, readDecimal_toDigits]

end Feature
end DispatchTree
