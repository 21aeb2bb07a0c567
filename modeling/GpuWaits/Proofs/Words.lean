/-
# Words, numbers and lines

What the writer puts on a line has to come apart again at the same places.  A word ends where the
next character cannot continue it, so a piece of text can be cut on its own as long as it does not
start with such a character: a blank, a comma or an equals sign stands in front of every word but
the first.  `Lexes t ts` says this of a piece `t` with the tokens `ts`, and pieces may be put one
after the other.  Numbers are words, in either base, and are read back as what was written.
-/
import GpuWaits.Text.Number
import GpuWaits.Text.Token
import Mathlib.Tactic.Common

namespace GpuWaits

/-- Texts with a divider between them are the first text and the others behind a divider. -/
lemma intercalate_cons (divider t : String) (texts : List String) :
    divider.intercalate (t :: texts) = t ++ String.join (texts.map (divider ++ ·)) := by
  induction texts generalizing t with
  | nil => rw [String.intercalate_singleton, List.map_nil, String.join_nil, String.append_empty]
  | cons u texts ih =>
    rw [String.intercalate_cons_cons, ih u, List.map_cons, String.join_cons, String.append_assoc,
      String.append_assoc]

namespace Token

/-! ### Words -/

/-- Whether a bracket is open after the characters, if all of them stand in one word. -/
def scan : Bool → List Char → Option Bool
  | inside, [] => some inside
  | inside, c :: cs => if continues inside c then scan (opens inside c) cs else none

lemma scan_append (inside : Bool) (cs ds : List Char) :
    scan inside (cs ++ ds) = (scan inside cs).bind (scan · ds) := by
  induction cs generalizing inside with
  | nil => rfl
  | cons c cs ih =>
    simp only [List.cons_append, scan]
    split
    · exact ih _
    · rfl

lemma scan_wordChar {c : Char} (h : isWordChar c = true) (inside : Bool) (cs : List Char) :
    scan inside (c :: cs) = scan inside cs := by
  have hopen : c ≠ '[' := by rintro rfl; exact absurd h (by decide)
  have hclose : c ≠ ']' := by rintro rfl; exact absurd h (by decide)
  have hkept : opens inside c = inside := by simp [opens, hopen, hclose]
  rw [scan, if_pos (by simp [continues, h]), hkept]

lemma scan_of_wordChars {cs : List Char} (h : ∀ c ∈ cs, isWordChar c = true) (inside : Bool) :
    scan inside cs = some inside := by
  induction cs with
  | nil => rfl
  | cons c cs ih =>
    rw [scan_wordChar (h c List.mem_cons_self)]
    exact ih fun d hd => h d (List.mem_cons_of_mem c hd)

/-- The characters of a bracket: an opening one, a colon inside, and a closing one. -/
lemma scan_open (cs : List Char) : scan false ('[' :: cs) = scan true cs := rfl

lemma scan_colon (cs : List Char) : scan true (':' :: cs) = scan true cs := rfl

lemma scan_close (cs : List Char) : scan true (']' :: cs) = scan false cs := rfl

/-- No line break stands in a word. -/
lemma not_mem_of_scan {cs : List Char} {inside after : Bool} (h : scan inside cs = some after) :
    '\n' ∉ cs := by
  induction cs generalizing inside with
  | nil => exact List.not_mem_nil
  | cons c cs ih =>
    rw [scan] at h
    split at h
    case isFalse => cases h
    case isTrue hc =>
      rw [List.mem_cons, not_or]
      refine ⟨?_, ih h⟩
      rintro rfl
      cases inside <;> exact absurd hc (by decide)

/-- The text is one word, with its brackets closed. -/
structure IsWord (w : String) : Prop where
  nonempty : w.toList ≠ []
  closed : scan false w.toList = some false

/-- For words that are given by their characters, as those of a literal are. -/
lemma isWord_ofList {cs : List Char}
    (h : cs ≠ [] ∧ scan false cs = some false := by decide) :
    IsWord (String.ofList cs) :=
  ⟨by simpa using h.1, by simpa using h.2⟩

lemma isWord_of_wordChars {cs : List Char} (hne : cs ≠ []) (h : ∀ c ∈ cs, isWordChar c = true) :
    IsWord (String.ofList cs) :=
  isWord_ofList ⟨hne, scan_of_wordChars h false⟩

/-! ### Cutting a line -/

/-- Nothing that starts like this continues a word before it. -/
def EndsWord (k : List Char) : Prop := ∀ c ∈ k.head?, continues false c = false

lemma endsWord_nil : EndsWord [] := fun _ h => by cases h

lemma endsWord_cons {c : Char} (h : continues false c = false) (k : List Char) : EndsWord (c :: k) := by
  rintro d hd
  rwa [← (Option.some.inj hd : c = d)]

lemma EndsWord.append {t k : List Char} (ht : EndsWord t) (hk : EndsWord k) : EndsWord (t ++ k) := by
  cases t with
  | nil => exact hk
  | cons c t => exact ht

/-- A word that has been started goes on to its end. -/
lemma rest_inWord {cs k : List Char} {inside : Bool} (h : scan inside cs = some false)
    (hk : EndsWord k) (spaced : Bool) (reversed : List Char) :
    Cut.rest (.inWord spaced inside reversed) (cs ++ k)
      = ⟨spaced, .word (.ofList (reversed.reverse ++ cs))⟩ :: Cut.rest (.between false) k := by
  induction cs generalizing inside reversed with
  | nil =>
    obtain rfl : inside = false := Option.some.inj h
    rw [List.nil_append, List.append_nil]
    cases k with
    | nil => rfl
    | cons c k =>
      have hc : continues false c = false := hk c rfl
      simp [Cut.rest, Cut.next, Cut.finished, hc]
  | cons c cs ih =>
    rw [scan] at h
    split at h
    case isFalse => cases h
    case isTrue hc =>
      rw [List.cons_append, Cut.rest, Cut.next, if_pos hc]
      simpa using ih h (c :: reversed)

/-- A word is cut off as one token. -/
lemma rest_word {w : String} (hw : IsWord w) {k : List Char} (hk : EndsWord k) (spaced : Bool) :
    Cut.rest (.between spaced) (w.toList ++ k)
      = ⟨spaced, .word w⟩ :: Cut.rest (.between false) k := by
  obtain ⟨c, cs, hcs⟩ := List.exists_cons_of_ne_nil hw.nonempty
  have hscan := hw.closed
  rw [hcs, scan] at hscan
  split at hscan
  case isFalse => cases hscan
  case isTrue hc =>
    -- a character that continues a word is no blank and starts no comment
    have hblank : isBlank c = false := by
      rw [Bool.eq_false_iff]
      intro hb
      simp only [isBlank, Bool.or_eq_true, beq_iff_eq] at hb
      rcases hb with (rfl | rfl) | rfl <;> exact absurd hc (by decide)
    have hcomment : (c == ';') = false := by
      rw [beq_eq_false_iff_ne]
      rintro rfl
      exact absurd hc (by decide)
    have hstart : Cut.next (.between spaced) c = (.inWord spaced (opens false c) [c], []) := by
      simp [Cut.next, Cut.start, hblank, hcomment, hc]
    rw [hcs, List.cons_append, Cut.rest, hstart]
    show [] ++ Cut.rest (.inWord spaced (opens false c) [c]) (cs ++ k) = _
    rw [List.nil_append, rest_inWord hscan hk, ← String.ofList_toList (s := w), hcs]
    rfl

/-- The signs of the format. -/
def signs : List Char := [',', '=', ':']

lemma rest_sign {c : Char} (hc : c ∈ signs) (spaced : Bool) (k : List Char) :
    Cut.rest (.between spaced) (c :: k) = ⟨spaced, .sign c⟩ :: Cut.rest (.between false) k := by
  have hstart : Cut.start spaced c = (.between false, [⟨spaced, .sign c⟩]) := by
    simp only [signs, List.mem_cons, List.not_mem_nil, or_false] at hc
    rcases hc with rfl | rfl | rfl <;> rfl
  rw [Cut.rest, Cut.next, hstart]
  rfl

lemma rest_blank (spaced : Bool) (k : List Char) :
    Cut.rest (.between spaced) (' ' :: k) = Cut.rest (.between true) k := rfl

lemma continues_sign {c : Char} (hc : c ∈ signs) : continues false c = false := by
  simp only [signs, List.mem_cons, List.not_mem_nil, or_false] at hc
  rcases hc with rfl | rfl | rfl <;> decide

/-- The text `t` is cut into the tokens `ts`, whatever stands around it on its line. -/
structure Lexes (t : String) (ts : List Token) : Prop where
  ends : EndsWord t.toList
  unbroken : '\n' ∉ t.toList
  cut : ∀ k, EndsWord k →
    Cut.rest (.between false) (t.toList ++ k) = ts ++ Cut.rest (.between false) k

section Lexes

variable {t u w : String} {ts us : List Token}

lemma lexes_empty : Lexes "" [] := ⟨endsWord_nil, List.not_mem_nil, fun _ _ => rfl⟩

lemma Lexes.append (ht : Lexes t ts) (hu : Lexes u us) : Lexes (t ++ u) (ts ++ us) where
  ends := by
    rw [String.toList_append]
    exact ht.ends.append hu.ends
  unbroken := by
    rw [String.toList_append, List.mem_append, not_or]
    exact ⟨ht.unbroken, hu.unbroken⟩
  cut k hk := by
    rw [String.toList_append, List.append_assoc, ht.cut _ (hu.ends.append hk), hu.cut k hk,
      List.append_assoc]

/-- A word behind a blank. -/
lemma lexes_blank_word (hw : IsWord w) : Lexes (" " ++ w) [⟨true, .word w⟩] := by
  have htext : (" " ++ w).toList = ' ' :: w.toList := by rw [String.toList_append]; rfl
  refine ⟨?_, ?_, fun k hk => ?_⟩ <;> rw [htext]
  · exact endsWord_cons (by decide) _
  · rw [List.mem_cons, not_or]
    exact ⟨by decide, not_mem_of_scan hw.closed⟩
  · rw [List.cons_append, rest_blank, rest_word hw hk]
    rfl

/-- A word behind a sign. -/
lemma lexes_sign_word {c : Char} (hc : c ∈ signs) (hw : IsWord w) :
    Lexes (.ofList [c] ++ w) [⟨false, .sign c⟩, ⟨false, .word w⟩] := by
  have htext : (String.ofList [c] ++ w).toList = c :: w.toList := by
    rw [String.toList_append, String.toList_ofList]
    rfl
  refine ⟨?_, ?_, fun k hk => ?_⟩ <;> rw [htext]
  · exact endsWord_cons (continues_sign hc) _
  · rw [List.mem_cons, not_or]
    refine ⟨?_, not_mem_of_scan hw.closed⟩
    rintro rfl
    exact absurd hc (by decide)
  · rw [List.cons_append, rest_sign hc, rest_word hw hk]
    rfl

/-- A sign, with a blank in front of it or none. -/
lemma lexes_sign {c : Char} (hc : c ∈ signs) : Lexes (.ofList [c]) [⟨false, .sign c⟩] := by
  refine ⟨?_, ?_, fun k hk => ?_⟩ <;> rw [String.toList_ofList]
  · exact endsWord_cons (continues_sign hc) _
  · rw [List.mem_singleton]
    rintro rfl
    exact absurd hc (by decide)
  · exact rest_sign hc false k

lemma lexes_blank_sign {c : Char} (hc : c ∈ signs) : Lexes (.ofList [' ', c]) [⟨true, .sign c⟩] := by
  refine ⟨?_, ?_, fun k hk => ?_⟩ <;> rw [String.toList_ofList]
  · exact endsWord_cons (by decide) _
  · simp only [List.mem_cons, List.not_mem_nil, or_false, not_or]
    refine ⟨by decide, ?_⟩
    rintro rfl
    exact absurd hc (by decide)
  · exact rest_sign hc true k

/-- The tokens of a list of words with commas between them; `spaced` tells that a blank stands
before each word. -/
def ofWords (spaced : Bool) : List String → List Token
  | [] => []
  | [w] => [⟨spaced, .word w⟩]
  | w :: ws => ⟨spaced, .word w⟩ :: ⟨false, .sign ','⟩ :: ofWords spaced ws

/-- A list of words behind a sign. -/
lemma lexes_sign_words {c : Char} (hc : c ∈ signs) {ws : List String} (hne : ws ≠ [])
    (hws : ∀ w ∈ ws, IsWord w) :
    Lexes (.ofList [c] ++ ",".intercalate ws) (⟨false, .sign c⟩ :: ofWords false ws) := by
  induction ws generalizing c with
  | nil => exact absurd rfl hne
  | cons w ws ih =>
    have hw := lexes_sign_word hc (hws w List.mem_cons_self)
    cases ws with
    | nil =>
      rw [String.intercalate_singleton]
      exact hw
    | cons v ws =>
      have hrest := ih (c := ',') (by decide) (List.cons_ne_nil v ws) fun x hx =>
        hws x (List.mem_cons_of_mem w hx)
      rw [String.intercalate_cons_cons, String.append_assoc, ← String.append_assoc]
      exact hw.append hrest

/-- A list of words, with a blank before each of them. -/
lemma lexes_blank_words {ws : List String} (hne : ws ≠ []) (hws : ∀ w ∈ ws, IsWord w) :
    Lexes (" " ++ ", ".intercalate ws) (ofWords true ws) := by
  induction ws with
  | nil => exact absurd rfl hne
  | cons w ws ih =>
    have hw := lexes_blank_word (hws w List.mem_cons_self)
    cases ws with
    | nil =>
      rw [String.intercalate_singleton]
      exact hw
    | cons v ws =>
      have hrest := ih (List.cons_ne_nil v ws) fun x hx => hws x (List.mem_cons_of_mem w hx)
      have hcomma : Lexes "," [⟨false, .sign ','⟩] := lexes_sign (by decide)
      have htext : " " ++ ", ".intercalate (w :: v :: ws)
          = " " ++ w ++ ("," ++ (" " ++ ", ".intercalate (v :: ws))) := by
        rw [String.intercalate_cons_cons, show ", " = "," ++ " " from rfl]
        simp only [String.append_assoc]
      rw [htext]
      exact hw.append (hcomma.append hrest)

lemma unbroken_word (hw : IsWord w) (ht : Lexes t ts) : '\n' ∉ (w ++ t).toList := by
  rw [String.toList_append, List.mem_append, not_or]
  exact ⟨not_mem_of_scan hw.closed, ht.unbroken⟩

/-- The tokens of a line that is a word and a text after it. -/
lemma ofLine_word (hw : IsWord w) (ht : Lexes t ts) :
    ofLine (w ++ t).toList = ⟨false, .word w⟩ :: ts := by
  rw [String.toList_append, ofLine, rest_word hw ht.ends, ← List.append_nil t.toList,
    ht.cut [] endsWord_nil]
  exact congrArg _ (List.append_nil ts)

/-- The tokens of an indented line. -/
lemma ofLine_indented (hw : IsWord w) (ht : Lexes t ts) :
    ofLine ("  " ++ (w ++ t)).toList = ⟨true, .word w⟩ :: ts := by
  have htext : ("  " ++ (w ++ t)).toList = ' ' :: ' ' :: (w.toList ++ t.toList) := by
    rw [String.toList_append, String.toList_append]
    rfl
  rw [htext, ofLine, rest_blank, rest_blank, rest_word hw ht.ends, ← List.append_nil t.toList,
    ht.cut [] endsWord_nil]
  exact congrArg _ (List.append_nil ts)

end Lexes

end Token

/-! ### Numbers -/

namespace Number

open Token

lemma digit?_digitChar {d : Nat} (h : d < 16) : digit? d.digitChar = some d := by
  revert d
  decide

/-- The digits of a number are read back, whatever has been read before them. -/
lemma ofDigits?_toDigits {base : Nat} (hbase : 1 < base) (hle : base ≤ 16) (n : Nat) :
    ofDigits? base (Nat.toDigits base n) = some n := by
  induction n using Nat.strongRecOn with
  | ind n ih =>
    rw [Nat.toDigits_eq_if hbase]
    split
    case isTrue h => simp [ofDigits?, digit?_digitChar (Nat.lt_of_lt_of_le h hle), h]
    case isFalse h =>
      have hmod : n % base < base := Nat.mod_lt n (by omega)
      have hrest := ih (n / base) (Nat.div_lt_self (by omega) hbase)
      rw [ofDigits?] at hrest ⊢
      rw [List.foldlM_append, hrest]
      simp [digit?_digitChar (Nat.lt_of_lt_of_le hmod hle), hmod, Nat.div_add_mod']

/-- Every digit of a number is a digit of its base. -/
lemma exists_digit_of_mem_toDigits {base : Nat} (hbase : 1 < base) {n : Nat} {c : Char}
    (h : c ∈ Nat.toDigits base n) : ∃ d < base, c = d.digitChar := by
  induction n using Nat.strongRecOn with
  | ind n ih =>
    rw [Nat.toDigits_eq_if hbase] at h
    split at h
    case isTrue hn => exact ⟨n, hn, List.mem_singleton.1 h⟩
    case isFalse hn =>
      rcases List.mem_append.1 h with h | h
      · exact ih (n / base) (Nat.div_lt_self (by omega) hbase) h
      · exact ⟨n % base, Nat.mod_lt n (by omega), List.mem_singleton.1 h⟩

lemma isWordChar_digitChar {d : Nat} (h : d < 16) : isWordChar d.digitChar = true := by
  revert d
  decide

lemma isWordChar_of_mem_toDigits {base : Nat} (hbase : 1 < base) (hle : base ≤ 16) {n : Nat}
    {c : Char} (h : c ∈ Nat.toDigits base n) : isWordChar c = true := by
  obtain ⟨d, hd, rfl⟩ := exists_digit_of_mem_toDigits hbase h
  exact isWordChar_digitChar (Nat.lt_of_lt_of_le hd hle)

/-- The word is a way to write the number. -/
structure Writes (w : String) (n : Nat) : Prop where
  isWord : IsWord w
  read : n < UInt32.size → read? w = some (.ofNat n)

lemma writes_toString (n : Nat) : Writes (toString n) n := by
  rw [Nat.toString_eq_ofList_toDigits]
  have hchars : ∀ c ∈ Nat.toDigits 10 n, isWordChar c = true := fun c hc =>
    isWordChar_of_mem_toDigits (by decide) (by decide) hc
  refine ⟨isWord_of_wordChars Nat.toDigits_ne_nil hchars, fun hn => ?_⟩
  rw [read?, String.toList_ofList]
  split
  next base digits hmatch =>
    split at hmatch
    case h_1 hdigits =>
      -- a decimal number has no letter in it
      have hx : 'x' ∈ Nat.toDigits 10 n := by simp [hdigits]
      exact absurd (Nat.isDigit_of_mem_toDigits (by decide) (by decide) hx) (by decide)
    case h_2 =>
      obtain ⟨rfl, rfl⟩ := Prod.mk.inj hmatch
      simp [Nat.toDigits_ne_nil, ofDigits?_toDigits, hn]

lemma writes_hex (n : Nat) : Writes (hex n) n := by
  have htext : hex n = String.ofList ('0' :: 'x' :: Nat.toDigits 16 n) := by
    show String.ofList ['0', 'x'] ++ _ = String.ofList (['0', 'x'] ++ _)
    exact String.ofList_append.symm
  have hchars : ∀ c ∈ '0' :: 'x' :: Nat.toDigits 16 n, isWordChar c = true := by
    simp only [List.forall_mem_cons]
    exact ⟨by decide, by decide, fun c hc => isWordChar_of_mem_toDigits (by decide) (by decide) hc⟩
  rw [htext]
  refine ⟨isWord_of_wordChars (List.cons_ne_nil _ _) hchars, fun hn => ?_⟩
  rw [read?, String.toList_ofList]
  simp [Nat.toDigits_ne_nil, ofDigits?_toDigits, hn]

end Number

/-! ### Lines -/

/-- A line break ends a line. -/
lemma lines_append {l : List Char} (h : '\n' ∉ l) (k : List Char) :
    lines (l ++ '\n' :: k) = l :: lines k := by
  induction l with
  | nil => rfl
  | cons c l ih =>
    rw [List.mem_cons, not_or] at h
    have hrest := ih h.2
    rw [lines] at hrest ⊢
    rw [List.cons_append, List.foldr_cons, hrest, if_neg (Ne.symm h.1)]

end GpuWaits
