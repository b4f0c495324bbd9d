import ShaderDag.Digest.Bytes
import ShaderDag.Proofs.Tiling

/-!
# Reading a text byte by byte

A text is stored as bytes, and a scanner may look at these one by one instead of at the characters.  It cuts
names and numbers out of the bytes, and the pieces have to be whole characters.  Words have characters of
seven bits only, so the scanner never cuts inside of a longer one.

* `view` — the bytes of a text as characters; `span_view`, `NumeralSpan.scan_view` — words start alike in
  both;
* `scanBytes` — the tokens of a text, read byte by byte, with the two faults it may have;
* `sameResult_scanBytes` — it has neither, and gives the tokens or the problem of the text;
* `tokenize_tiles` — the tokens of a text tile it, up to its end or up to its first problem.
-/

namespace ShaderDag

/-! ### The bytes of a text as characters -/

/-- A byte as the character with its number. -/
def byteChar (b : UInt8) : Char := Char.ofNat b.toNat

/-- The bytes that characters take. -/
def encode (cs : List Char) : List UInt8 := cs.flatMap String.utf8EncodeChar

/-- The bytes of some characters, each of them as a character. -/
def view (cs : List Char) : List Char := (encode cs).map byteChar

section View

variable {c : Char} {cs ds : List Char} {p : Char → Bool}

theorem utf8Bytes_eq (s : String) : utf8Bytes s = encode s.toList := by
  have same : s.toByteArray = s.toList.utf8Encode := by
    rw [← String.toByteArray_ofList, String.ofList_toList]
  rw [utf8Bytes, same, List.utf8Encode, List.toList_data_toByteArray, encode]

@[simp] theorem encode_append (cs ds : List Char) : encode (cs ++ ds) = encode cs ++ encode ds :=
  List.flatMap_append

theorem toNat_byteChar (b : UInt8) : (byteChar b).toNat = b.toNat := by
  have small : b.toNat < 256 := b.toNat_lt
  have valid : b.toNat.isValidChar := .inl (by omega)
  rw [byteChar, Char.ofNat, dif_pos valid]
  rfl

/-- A character of seven bits is one byte, and that byte is the character. -/
theorem encode_cons_of_lt (small : c.toNat < 128) (cs : List Char) :
    ∃ b, encode (c :: cs) = b :: encode cs ∧ byteChar b = c := by
  have one : String.utf8EncodeChar c = [UInt8.ofNat c.toNat] := by
    rw [String.utf8EncodeChar, if_pos]
    · rfl
    · exact Nat.le_of_lt_succ small
  refine ⟨UInt8.ofNat c.toNat, by rw [encode, List.flatMap_cons, one]; rfl, ?_⟩
  have value : (UInt8.ofNat c.toNat).toNat = c.toNat := by
    rw [UInt8.toNat_ofNat']
    omega
  rw [byteChar, value, Char.ofNat_toNat]

/-- Every other character starts with a byte of eight bits. -/
theorem encode_cons_of_ge (large : 128 ≤ c.toNat) (cs : List Char) :
    ∃ b bs, encode (c :: cs) = b :: bs ∧ 128 ≤ (byteChar b).toNat := by
  have lead : ∃ b bs, String.utf8EncodeChar c = b :: bs ∧ 128 ≤ b.toNat := by
    have notOne : ¬c.val.toNat ≤ 127 := by
      show ¬c.toNat ≤ 127
      omega
    rw [String.utf8EncodeChar, if_neg notOne]
    split
    · refine ⟨_, _, rfl, ?_⟩
      rw [UInt8.toNat_ofNat']
      omega
    · split
      · refine ⟨_, _, rfl, ?_⟩
        rw [UInt8.toNat_ofNat']
        omega
      · refine ⟨_, _, rfl, ?_⟩
        rw [UInt8.toNat_ofNat']
        omega
  obtain ⟨b, bs, bytes, high⟩ := lead
  refine ⟨b, bs ++ encode cs, by rw [encode, List.flatMap_cons, bytes]; rfl, ?_⟩
  rw [toNat_byteChar]
  exact high

theorem view_cons_of_lt (small : c.toNat < 128) (cs : List Char) : view (c :: cs) = c :: view cs := by
  obtain ⟨b, bytes, same⟩ := encode_cons_of_lt small cs
  rw [view, bytes, List.map_cons, same]
  rfl

/-- The first byte of a text is its first character if that has seven bits, and has eight bits if not. -/
theorem view_cases (c : Char) (cs : List Char) :
    (c.toNat < 128 ∧ view (c :: cs) = c :: view cs) ∨
      (128 ≤ c.toNat ∧ ∃ d ds, view (c :: cs) = d :: ds ∧ 128 ≤ d.toNat) := by
  by_cases small : c.toNat < 128
  · exact .inl ⟨small, view_cons_of_lt small cs⟩
  · have large : 128 ≤ c.toNat := by omega
    obtain ⟨b, bs, bytes, high⟩ := encode_cons_of_ge large cs
    exact .inr ⟨large, byteChar b, bs.map byteChar, by rw [view, bytes, List.map_cons], high⟩

theorem view_of_lt {text : List Char} (small : ∀ c ∈ text, c.toNat < 128) : view text = text := by
  induction text with
  | nil => rfl
  | cons c text ih =>
    rw [List.forall_mem_cons] at small
    rw [view_cons_of_lt small.1, ih small.2]

theorem length_encode_of_lt {text : List Char} (small : ∀ c ∈ text, c.toNat < 128) :
    (encode text).length = text.length := by
  have same := congrArg List.length (view_of_lt small)
  rwa [view, List.length_map] at same

/-- A class of seven-bit characters. -/
def Narrow (p : Char → Bool) : Prop := ∀ c, p c = true → c.toNat < 128

theorem Narrow.eq_false (narrow : Narrow p) (large : 128 ≤ c.toNat) : p c = false := by
  by_contra h
  have small := narrow c (by simpa using h)
  omega

/-- The bytes of a text start in a narrow class as its characters do. -/
theorem span_view (narrow : Narrow p) (cs : List Char) :
    (view cs).takeWhile p = cs.takeWhile p ∧ (view cs).dropWhile p = view (cs.dropWhile p) := by
  induction cs with
  | nil => exact ⟨rfl, rfl⟩
  | cons c cs ih =>
    rcases view_cases c cs with ⟨small, bytes⟩ | ⟨large, d, ds, bytes, high⟩
    · rw [bytes, List.takeWhile_cons, List.takeWhile_cons, List.dropWhile_cons,
        List.dropWhile_cons]
      by_cases inside : p c = true
      · rw [if_pos inside, if_pos inside, if_pos inside, if_pos inside, ih.1]
        exact ⟨rfl, ih.2⟩
      · rw [if_neg inside, if_neg inside, if_neg inside, if_neg inside]
        exact ⟨rfl, bytes.symm⟩
    · have here : p c = false := narrow.eq_false large
      have there : p d = false := narrow.eq_false high
      rw [bytes, List.takeWhile_cons, List.takeWhile_cons, List.dropWhile_cons, List.dropWhile_cons,
        here, there]
      exact ⟨rfl, bytes.symm⟩

theorem head?_view (narrow : Narrow p) (cs : List Char) : (view cs).head?.any p = cs.head?.any p := by
  cases cs with
  | nil => rfl
  | cons c cs =>
    rcases view_cases c cs with ⟨-, bytes⟩ | ⟨large, d, ds, bytes, high⟩
    · rw [bytes]
      rfl
    · rw [bytes, List.head?_cons, List.head?_cons, Option.any_some, Option.any_some,
        narrow.eq_false high, narrow.eq_false large]

theorem narrow_isBlank : Narrow isBlank := fun _ => lt_of_isBlank

theorem narrow_isDigit : Narrow isDigit := fun _ => lt_of_isDigit

theorem narrow_isNamePart : Narrow isNamePart := fun _ => lt_of_isNamePart

theorem lt_of_startsNumeral (start : startsNumeral c cs = true) : c.toNat < 128 := by
  rw [startsNumeral, Bool.or_eq_true, Bool.and_eq_true, beq_iff_eq] at start
  rcases start with digit | ⟨rfl, -⟩
  · exact lt_of_isDigit digit
  · decide

theorem startsNumeral_view (c : Char) (cs : List Char) : startsNumeral c (view cs) = startsNumeral c cs := by
  rw [startsNumeral, startsNumeral, head?_view narrow_isDigit]

/-! ### A number in bytes -/

namespace NumeralSpan

/-- A number in front of the bytes of the remaining text. -/
def viewed (s : NumeralSpan) : NumeralSpan := { s with rest := view s.rest }

theorem signSpan_view (cs : List Char) : signSpan (view cs) = ((signSpan cs).1, view (signSpan cs).2) := by
  cases cs with
  | nil => rfl
  | cons c cs =>
    rcases view_cases c cs with ⟨-, bytes⟩ | ⟨large, d, ds, bytes, high⟩
    · rw [bytes]
      by_cases plus : c = '+'
      · subst plus
        rfl
      by_cases minus : c = '-'
      · subst minus
        rfl
      have bare : ∀ ds, signSpan (c :: ds) = (none, c :: ds) := by
        intro ds
        unfold signSpan
        split
        · next same => exact absurd (List.cons.inj same).1 plus
        · next same => exact absurd (List.cons.inj same).1 minus
        · rfl
      rw [bare, bare, bytes]
    · have bare : ∀ e es, 128 ≤ e.toNat → signSpan (e :: es) = (none, e :: es) := by
        intro e es far
        unfold signSpan
        split
        · next same =>
          rw [(List.cons.inj same).1] at far
          exact absurd far (by decide)
        · next same =>
          rw [(List.cons.inj same).1] at far
          exact absurd far (by decide)
        · rfl
      rw [bytes, bare d ds high, bare c cs large, bytes]

theorem scanExponent_view (whole : List Char) (fraction : Option (List Char)) (after : List Char) :
    scanExponent whole fraction (view after) = (scanExponent whole fraction after).map viewed := by
  cases after with
  | nil => rfl
  | cons c cs =>
    have plain : ∀ d ds, ¬IsMark d →
        scanExponent whole fraction (d :: ds) = .ok ⟨whole, fraction, none, d :: ds⟩ := by
      intro d ds other
      rw [scanExponent, if_neg]
      rw [isMark_iff]
      exact other
    by_cases marked : IsMark c
    · obtain ⟨taken, dropped⟩ := span_view narrow_isDigit (signSpan cs).2
      rw [view_cons_of_lt marked.lt, scanExponent, scanExponent, if_pos (isMark_iff.2 marked),
        if_pos (isMark_iff.2 marked), signSpan_view]
      dsimp only
      rw [taken, dropped]
      split
      · rfl
      · rfl
    · rw [plain c cs marked]
      rcases view_cases c cs with ⟨-, bytes⟩ | ⟨-, d, ds, bytes, high⟩
      · rw [bytes, plain c _ marked]
        show _ = Except.ok (viewed _)
        rw [viewed, bytes]
      · have other : ¬IsMark d := by
          intro mark
          have low := mark.lt
          omega
        rw [bytes, plain d ds other]
        show _ = Except.ok (viewed _)
        rw [viewed, bytes]

/-- A number is read off the bytes of a text as off its characters. -/
theorem scan_view (cs : List Char) : scan (view cs) = (scan cs).map viewed := by
  obtain ⟨taken, dropped⟩ := span_view narrow_isDigit cs
  have point : '.'.toNat < 128 := by decide
  by_cases pointed : ∃ ds, cs.dropWhile isDigit = '.' :: ds
  · obtain ⟨ds, pointed⟩ := pointed
    obtain ⟨taken', dropped'⟩ := span_view narrow_isDigit ds
    rw [pointed, view_cons_of_lt point] at dropped
    rw [scan_point pointed, scan_point dropped, taken, taken', dropped', scanExponent_view]
  · have noPoint : ∀ c, (cs.dropWhile isDigit).head? = some c → c ≠ '.' := by
      rintro c first rfl
      obtain ⟨ds, same⟩ := List.head?_eq_some_iff.1 first
      exact pointed ⟨ds, same⟩
    have noPoint' : ∀ c, ((view cs).dropWhile isDigit).head? = some c → c ≠ '.' := by
      rw [dropped]
      intro c first same
      subst same
      cases behind : cs.dropWhile isDigit with
      | nil =>
        rw [behind] at first
        cases first
      | cons d ds =>
        rw [behind] at first
        rcases view_cases d ds with ⟨-, bytes⟩ | ⟨-, e, es, bytes, high⟩
        · rw [bytes] at first
          exact noPoint d (by rw [behind]; rfl) (Option.some.inj first)
        · rw [bytes] at first
          rw [Option.some.inj first] at high
          omega
    rw [scan_noPoint noPoint, scan_noPoint noPoint', taken, dropped, scanExponent_view]

end NumeralSpan

end View

/-! ### A scanner of bytes -/

/-- Why a scanner of bytes may stop: the text is refused, the characters of a number are not read as one, or
a piece of the text does not consist of whole characters. -/
inductive ByteFault where
  | refused (e : SyntaxError)
  | unreadNumber (offset : Nat)
  | splitCharacter (offset : Nat)

/-- The text of some bytes, which have to be whole characters. -/
def pieceText (offset : Nat) (bytes : List UInt8) : Except ByteFault String :=
  match String.fromUTF8? bytes.toByteArray with
  | some text => .ok text
  | none => .error (.splitCharacter offset)

/-- The value of a number, which has to be read as one. -/
def pieceValue (read : String → Option Numeral) (offset : Nat) (text : String) : Except ByteFault Numeral :=
  match read text with
  | some value => .ok value
  | none => .error (.unreadNumber offset)

/-- The tokens of the text whose remaining bytes start at `offset`.  Characters are told apart by single
bytes, and the text of a name, of a number or of a stray character is cut out of the bytes. -/
def scanBytes (read : String → Option Numeral) (offset : Nat) (bytes : List UInt8) :
    Except ByteFault (List Token) :=
  match bytes with
  | [] => .ok [⟨.endOfInput, offset⟩]
  | b :: rest =>
    if isBlank (byteChar b) then scanBytes read (offset + 1) rest
    else if start : startsNumeral (byteChar b) (rest.map byteChar) = true then
      match h : NumeralSpan.scan (byteChar b :: rest.map byteChar) with
      | .error before => .error (.refused ⟨offset + before, .emptyExponent⟩)
      | .ok span => do
        have : 0 < span.characters.length := by
          obtain ⟨more, written, -⟩ := NumeralSpan.exists_characters start h
          rw [written]
          exact Nat.succ_pos _
        let text ← pieceText offset ((b :: rest).take span.characters.length)
        let value ← pieceValue read offset text
        let more ← scanBytes read (offset + span.characters.length)
          ((b :: rest).drop span.characters.length)
        return ⟨.numeral value, offset⟩ :: more
    else if isNameStart (byteChar b) then do
      let length := ((rest.map byteChar).takeWhile isNamePart).length + 1
      let text ← pieceText offset ((b :: rest).take length)
      let more ← scanBytes read (offset + length) ((b :: rest).drop length)
      return ⟨.name text, offset⟩ :: more
    else
      match symbolLexeme? (byteChar b) with
      | some lexeme => do
        let more ← scanBytes read (offset + 1) rest
        return ⟨lexeme, offset⟩ :: more
      | none => do
        let text ← pieceText offset (b :: rest)
        .error (.refused ⟨offset, .strayCharacter (text.toList.head?.getD (byteChar b))⟩)
termination_by bytes.length
decreasing_by
  all_goals simp only [List.length_cons, List.length_drop]
  all_goals omega

theorem pieceText_encode (offset : Nat) (text : List Char) :
    pieceText offset (encode text) = .ok (String.ofList text) := by
  have bytes : (encode text).toByteArray = text.utf8Encode := rfl
  have whole : String.fromUTF8? text.utf8Encode = some (String.ofList text) := by
    rw [String.fromUTF8?, dif_pos ByteArray.isValidUTF8_utf8Encode]
    rfl
  rw [pieceText, bytes, whole]

/-- Tokens that differ at most in the value of a number, which is the one that is read for its characters. -/
inductive SameToken (read : String → Option Numeral) : Token → Token → Prop where
  | numeral {s : NumeralSpan} {value : Numeral} (formed : s.WellFormed)
      (known : read (String.ofList s.characters) = some value) (offset : Nat) :
      SameToken read ⟨.numeral value, offset⟩ ⟨.numeral (.ofDecimal s.decimal), offset⟩
  | other {t : Token} (plain : ∀ value, t.lexeme ≠ .numeral value) : SameToken read t t

theorem sameToken_endOfInput {read : String → Option Numeral} (offset : Nat) :
    SameToken read ⟨.endOfInput, offset⟩ ⟨.endOfInput, offset⟩ := .other nofun

theorem sameToken_name {read : String → Option Numeral} (text : String) (offset : Nat) :
    SameToken read ⟨.name text, offset⟩ ⟨.name text, offset⟩ := .other nofun

/-- The same tokens, or the same problem. -/
inductive SameResult (read : String → Option Numeral) :
    Except ByteFault (List Token) → Except SyntaxError (List Token) → Prop where
  | tokens {ts us : List Token} (same : List.Forall₂ (SameToken read) ts us) :
      SameResult read (.ok ts) (.ok us)
  | refused (e : SyntaxError) : SameResult read (.error (.refused e)) (.error e)

theorem SameResult.cons {read : String → Option Numeral} {scanned : Except ByteFault (List Token)}
    {result : Except SyntaxError (List Token)} {t u : Token} (token : SameToken read t u)
    (more : SameResult read scanned result) :
    SameResult read (do let ts ← scanned; return t :: ts) (do let us ← result; return u :: us) := by
  cases more with
  | tokens same => exact .tokens (.cons token same)
  | refused e => exact .refused e

/-- A word is cut out of the bytes as it is, and what follows it is left. -/
theorem take_drop_encode {text : List Char} (small : ∀ c ∈ text, c.toNat < 128) (rest : List Char) :
    (encode (text ++ rest)).take text.length = encode text ∧
      (encode (text ++ rest)).drop text.length = encode rest := by
  rw [encode_append, ← length_encode_of_lt small]
  exact ⟨List.take_left, List.drop_left⟩

/-! ### Bytes and characters are scanned alike -/

section Scan

variable {read : String → Option Numeral} {o n : Nat} {c : Char} {cs : List Char} {span : NumeralSpan}

theorem symbolLexeme?_ne_numeral {lexeme : Lexeme} (known : symbolLexeme? c = some lexeme) (value : Numeral) :
    lexeme ≠ .numeral value := by
  unfold symbolLexeme? at known
  split at known
  case h_7 => cases known
  all_goals
    cases known
    nofun

/-- Where a number starts there is one byte, and the bytes are scanned as the characters are. -/
theorem exists_numeral_byte (start : startsNumeral c cs = true) :
    ∃ b, encode (c :: cs) = b :: encode cs ∧ isBlank (byteChar b) = false ∧
      startsNumeral (byteChar b) ((encode cs).map byteChar) = true ∧
      NumeralSpan.scan (byteChar b :: (encode cs).map byteChar) =
        (NumeralSpan.scan (c :: cs)).map NumeralSpan.viewed := by
  have small : c.toNat < 128 := lt_of_startsNumeral start
  obtain ⟨b, bytes, rfl⟩ := encode_cons_of_lt small cs
  have alike := NumeralSpan.scan_view (byteChar b :: cs)
  rw [view_cons_of_lt small] at alike
  refine ⟨b, bytes, isBlank_of_startsNumeral start, ?_, alike⟩
  rw [← start]
  exact startsNumeral_view _ cs

/-- A scan of bytes stops at the same mark. -/
theorem scanBytes_mark (start : startsNumeral c cs = true) (h : NumeralSpan.scan (c :: cs) = .error n) :
    scanBytes read o (encode (c :: cs)) = .error (.refused ⟨o + n, .emptyExponent⟩) := by
  obtain ⟨b, bytes, blank, start', scanned⟩ := exists_numeral_byte start
  rw [h] at scanned
  rw [bytes, scanBytes, if_neg (by simp [blank]), dif_pos start']
  split
  · next before failed =>
    rw [failed] at scanned
    cases scanned
    rfl
  · next found =>
    rw [found] at scanned
    cases scanned

/-- A scan of bytes cuts out the same number, which has to be read as a value. -/
theorem scanBytes_numeral (start : startsNumeral c cs = true) (h : NumeralSpan.scan (c :: cs) = .ok span) :
    scanBytes read o (encode (c :: cs)) = do
      let value ← pieceValue read o (String.ofList span.characters)
      let more ← scanBytes read (o + span.characters.length) (encode span.rest)
      return ⟨.numeral value, o⟩ :: more := by
  obtain ⟨split, -⟩ := NumeralSpan.scan_follow h
  have formed := NumeralSpan.wellFormed_of_scan start h
  obtain ⟨taken, dropped⟩ := take_drop_encode formed.lt span.rest
  obtain ⟨b, bytes, blank, start', scanned⟩ := exists_numeral_byte start
  rw [← split, bytes] at taken dropped
  rw [h] at scanned
  rw [bytes, scanBytes, if_neg (by simp [blank]), dif_pos start']
  split
  · next failed =>
    rw [failed] at scanned
    cases scanned
  · next span' found =>
    rw [found] at scanned
    cases scanned
    show (do
        let text ← pieceText o ((b :: encode cs).take span.characters.length)
        let value ← pieceValue read o text
        let more ← scanBytes read (o + span.characters.length)
          ((b :: encode cs).drop span.characters.length)
        return ⟨.numeral value, o⟩ :: more : Except ByteFault (List Token)) = _
    rw [taken, dropped, pieceText_encode]
    rfl

/-- A scan of bytes cuts out the same name. -/
theorem scanBytes_name (start : isNameStart c = true) :
    scanBytes read o (encode (c :: cs)) = do
      let more ← scanBytes read (o + (c :: cs.takeWhile isNamePart).length)
        (encode (cs.dropWhile isNamePart))
      return ⟨.name (String.ofList (c :: cs.takeWhile isNamePart)), o⟩ :: more := by
  have part : ∀ d ∈ c :: cs.takeWhile isNamePart, isNamePart d = true := by
    refine List.forall_mem_cons.2 ⟨by rw [isNamePart, start, Bool.true_or], fun d mem => ?_⟩
    exact List.all_eq_true.1 List.all_takeWhile d mem
  have small : c.toNat < 128 := lt_of_isNamePart (part c List.mem_cons_self)
  have split : c :: cs = (c :: cs.takeWhile isNamePart) ++ cs.dropWhile isNamePart := by
    rw [List.cons_append, List.takeWhile_append_dropWhile]
  obtain ⟨taken, dropped⟩ := take_drop_encode (fun d mem => lt_of_isNamePart (part d mem))
    (cs.dropWhile isNamePart)
  rw [← split] at taken dropped
  obtain ⟨blank, number⟩ := nameStart_apart start
  obtain ⟨b, bytes, rfl⟩ := encode_cons_of_lt small cs
  obtain ⟨word, -⟩ := span_view narrow_isNamePart cs
  rw [view] at word
  have length : (((encode cs).map byteChar).takeWhile isNamePart).length + 1 =
      (byteChar b :: cs.takeWhile isNamePart).length := by
    rw [word, List.length_cons]
  rw [bytes] at taken dropped
  rw [bytes, scanBytes, if_neg (by simp [blank]), dif_neg (by simp [number]), if_pos start]
  dsimp only
  rw [length, taken, dropped, pieceText_encode]
  rfl

/-- A scan of bytes goes past the same blanks and symbols. -/
theorem scanBytes_blank (blank : isBlank c = true) :
    scanBytes read o (encode (c :: cs)) = scanBytes read (o + 1) (encode cs) := by
  obtain ⟨b, bytes, rfl⟩ := encode_cons_of_lt (lt_of_isBlank blank) cs
  rw [bytes, scanBytes, if_pos blank]

theorem scanBytes_symbol {lexeme : Lexeme} (known : symbolLexeme? c = some lexeme) :
    scanBytes read o (encode (c :: cs)) = do
      let more ← scanBytes read (o + 1) (encode cs)
      return ⟨lexeme, o⟩ :: more := by
  obtain ⟨blank, number, name⟩ := symbol_apart known
  obtain ⟨b, bytes, rfl⟩ := encode_cons_of_lt (lt_of_symbol known) cs
  rw [bytes, scanBytes, if_neg (by simp [blank]), dif_neg (by simp [number]), if_neg (by simp [name])]
  simp only [known]

/-- Bytes that start nothing are refused with the whole character they belong to. -/
theorem scanBytes_stray (blank : isBlank c = false) (number : startsNumeral c cs = false)
    (name : isNameStart c = false) (unknown : symbolLexeme? c = none) :
    scanBytes read o (encode (c :: cs)) = .error (.refused ⟨o, .strayCharacter c⟩) := by
  have first : ∃ b bs, encode (c :: cs) = b :: bs ∧ isBlank (byteChar b) = false ∧
      startsNumeral (byteChar b) (bs.map byteChar) = false ∧ isNameStart (byteChar b) = false ∧
      symbolLexeme? (byteChar b) = none := by
    by_cases small : c.toNat < 128
    · obtain ⟨b, bytes, rfl⟩ := encode_cons_of_lt small cs
      refine ⟨b, _, bytes, blank, ?_, name, unknown⟩
      rw [← number]
      exact startsNumeral_view _ cs
    · -- a byte of eight bits is in none of the classes
      obtain ⟨b, bs, bytes, high⟩ := encode_cons_of_ge (Nat.le_of_not_lt small) cs
      have narrowName : Narrow isNameStart := fun d start =>
        lt_of_isNamePart (by rw [isNamePart, start, Bool.true_or])
      refine ⟨b, bs, bytes, narrow_isBlank.eq_false high, ?_, narrowName.eq_false high, ?_⟩
      · by_contra start
        have low := lt_of_startsNumeral (by simpa using start)
        omega
      · by_contra known
        obtain ⟨lexeme, known⟩ := Option.ne_none_iff_exists'.1 known
        have low := lt_of_symbol known
        omega
  have whole := pieceText_encode o (c :: cs)
  obtain ⟨b, bs, bytes, blank', number', name', unknown'⟩ := first
  rw [bytes] at whole
  rw [bytes, scanBytes, if_neg (by simp [blank']), dif_neg (by simp [number']), if_neg (by simp [name'])]
  simp only [unknown', whole]
  show Except.error (ByteFault.refused ⟨o, .strayCharacter _⟩) = _
  rw [String.toList_ofList]
  rfl

end Scan

/-- **A text is read byte by byte as it is character by character.**  If every number is read as some value,
then no piece is cut inside of a character and no number is left unread. -/
theorem sameResult_scanBytes {read : String → Option Numeral}
    (reads : ∀ s : NumeralSpan, s.WellFormed → (read (String.ofList s.characters)).isSome = true)
    (o : Nat) (cs : List Char) : SameResult read (scanBytes read o (encode cs)) (tokenizeFrom o cs) := by
  fun_induction tokenizeFrom o cs with
  | case1 o =>
    rw [encode, List.flatMap_nil, scanBytes]
    exact .tokens (.cons (sameToken_endOfInput o) .nil)
  | case2 o c cs blank ih =>
    rw [scanBytes_blank blank]
    exact ih
  | case3 o c cs _ start before stopped =>
    rw [scanBytes_mark start stopped]
    exact .refused _
  | case4 o c cs _ start span scanned _ ih =>
    have formed := NumeralSpan.wellFormed_of_scan start scanned
    obtain ⟨value, known⟩ := Option.isSome_iff_exists.1 (reads span formed)
    rw [scanBytes_numeral start scanned, pieceValue, known]
    exact ih.cons (.numeral formed known o)
  | case5 o c cs _ _ start _ name ih =>
    rw [scanBytes_name start]
    exact ih.cons (sameToken_name _ o)
  | case6 o c cs _ _ _ lexeme known ih =>
    rw [scanBytes_symbol known]
    exact ih.cons (.other (symbolLexeme?_ne_numeral known))
  | case7 o c cs blank number name unknown =>
    rw [scanBytes_stray (by simpa using blank) (by simpa using number) (by simpa using name) unknown]
    exact .refused _

/-! ### Texts are tiled -/

theorem utf8ByteSize_ofList (cs : List Char) : (String.ofList cs).utf8ByteSize = byteLength cs := by
  induction cs with
  | nil => rfl
  | cons c cs ih =>
    rw [byteLength_cons, ← ih, String.ofList_cons, String.utf8ByteSize_append, String.utf8ByteSize_singleton]

theorem byteLength_toList (source : String) : byteLength source.toList = source.utf8ByteSize := by
  rw [← utf8ByteSize_ofList, String.ofList_toList]

/-- Byte `n` of a text is the first one of a character, or its end. -/
def IsBoundary (source : String) (n : Nat) : Prop := (String.Pos.Raw.mk n).IsValid source

/-- The number of bytes in front of a part of a text is a boundary. -/
theorem isBoundary_byteLength {source : String} {before behind : List Char}
    (split : source.toList = before ++ behind) : IsBoundary source (byteLength before) := by
  rw [IsBoundary, String.Pos.Raw.isValid_iff_exists_append]
  refine ⟨String.ofList before, String.ofList behind, ?_, ?_⟩
  · rw [← String.ofList_append, ← split, String.ofList_toList]
  · rw [String.rawEndPos, utf8ByteSize_ofList]

/-- `SliceAt source n text rest`: the characters `text` start at byte `n` of the source, and `rest`
follows. -/
def SliceAt (source : String) (n : Nat) (text rest : List Char) : Prop :=
  ∃ before, source.toList = before ++ (text ++ rest) ∧ n = byteLength before

theorem SliceAt.isBoundary {source : String} {n : Nat} {text rest : List Char}
    (h : SliceAt source n text rest) :
    IsBoundary source n ∧ IsBoundary source (n + byteLength text) := by
  obtain ⟨before, split, rfl⟩ := h
  refine ⟨isBoundary_byteLength split, ?_⟩
  rw [← byteLength_append]
  rw [← List.append_assoc] at split
  exact isBoundary_byteLength split

section Tokenize

variable {source : String} {us : List Token} {stop : Nat} {rest : List Char} {e : SyntaxError}

theorem Tiles.sliceAt (h : Tiles 0 source.toList us stop rest) : SliceAt source stop [] rest := by
  obtain ⟨front, split, rfl⟩ := h.split
  exact ⟨front, split, Nat.zero_add _⟩

/-- What is tiled up to the end of the text. -/
theorem Tiles.tokenize_eq (h : Tiles 0 source.toList us stop []) :
    stop = source.utf8ByteSize ∧ tokenize source = .ok (us ++ [⟨.endOfInput, source.utf8ByteSize⟩]) := by
  obtain ⟨front, split, count⟩ := h.split
  have last : stop = source.utf8ByteSize := by
    rw [← byteLength_toList, split, List.append_nil, count, Nat.zero_add]
  refine ⟨last, ?_⟩
  rw [tokenize, h.run, tokenizeFrom, last]
  rfl

/-- What is tiled up to a problem. -/
theorem Stuck.tokenize_eq (h : Tiles 0 source.toList us stop rest) (stuck : Stuck stop rest e) :
    tokenize source = .error e := by
  rw [tokenize, h.run, stuck.run]
  rfl

/-- The place of a problem is a boundary, and the problem is a stray character or a hanging mark there. -/
theorem Stuck.isBoundary (h : Tiles 0 source.toList us stop rest) (stuck : Stuck stop rest e) :
    IsBoundary source e.offset := by
  obtain ⟨before, split, rfl⟩ := h.sliceAt
  cases stuck with
  | stray => exact isBoundary_byteLength split
  | @hanging text behind =>
    have slice : SliceAt source (byteLength before) text behind := ⟨before, split, rfl⟩
    exact slice.isBoundary.2

/-- The tokens of a text, if there are any, tile it to its end. -/
theorem tokenize_ok_iff {ts : List Token} : tokenize source = .ok ts ↔
    ∃ us, Tiles 0 source.toList us source.utf8ByteSize [] ∧
      ts = us ++ [⟨.endOfInput, source.utf8ByteSize⟩] := by
  constructor
  · intro run
    obtain ⟨us, stop, rest, tiles, rfl | ⟨e, stuck⟩⟩ := exists_tiles 0 source.toList
    · obtain ⟨rfl, same⟩ := tiles.tokenize_eq
      rw [run] at same
      exact ⟨us, tiles, Except.ok.inj same⟩
    · rw [stuck.tokenize_eq tiles] at run
      cases run
  · intro h
    obtain ⟨us, tiles, rfl⟩ := h
    exact tiles.tokenize_eq.2

/-- A text is refused exactly where its tiling is stuck. -/
theorem tokenize_error_iff : tokenize source = .error e ↔
    ∃ us stop rest, Tiles 0 source.toList us stop rest ∧ Stuck stop rest e := by
  constructor
  · intro run
    obtain ⟨us, stop, rest, tiles, rfl | ⟨e', stuck⟩⟩ := exists_tiles 0 source.toList
    · rw [tiles.tokenize_eq.2] at run
      cases run
    · have same := stuck.tokenize_eq tiles
      rw [run] at same
      cases same
      exact ⟨us, stop, rest, tiles, stuck⟩
  · intro h
    obtain ⟨us, stop, rest, tiles, stuck⟩ := h
    exact stuck.tokenize_eq tiles

end Tokenize

/-- **The tokens of a text tile it.**  They do so up to its end, or up to the first character that starts
no word or the first mark that hangs behind a number; each of them is the longest word of its class, cut
out between two boundaries of characters.  A scan of the bytes gives the same result, whatever reads the
numbers. -/
theorem tokenize_tiles (source : String) :
    (∀ ts, tokenize source = .ok ts ↔ ∃ us, Tiles 0 source.toList us source.utf8ByteSize [] ∧
      ts = us ++ [⟨.endOfInput, source.utf8ByteSize⟩]) ∧
    (∀ e, tokenize source = .error e ↔
      ∃ us stop rest, Tiles 0 source.toList us stop rest ∧ Stuck stop rest e) ∧
    ((∃ ts, tokenize source = .ok ts) ↔
      ∀ us stop rest e, Tiles 0 source.toList us stop rest → ¬Stuck stop rest e) ∧
    (∀ us stop rest, Tiles 0 source.toList us stop rest →
      SliceAt source stop [] rest ∧ us.Pairwise (·.offset < ·.offset) ∧
      ∀ t ∈ us, t.offset < stop ∧ ∃ k text behind, SliceAt source t.offset text behind ∧
        Word k text t.lexeme ∧ Longest k text behind ∧
        IsBoundary source t.offset ∧ IsBoundary source (t.offset + byteLength text)) ∧
    (∀ e, tokenize source = .error e → IsBoundary source e.offset ∧
      (e.problem = .emptyExponent ∨ ∃ c behind, e.problem = .strayCharacter c ∧
        SliceAt source e.offset [c] behind ∧
        e.problem.text = "unexpected character '" ++ String.singleton c ++ "'")) ∧
    ∀ read : String → Option Numeral,
      (∀ s : NumeralSpan, s.WellFormed → (read (String.ofList s.characters)).isSome = true) →
        SameResult read (scanBytes read 0 (utf8Bytes source)) (tokenize source) := by
  refine ⟨fun ts => tokenize_ok_iff, fun e => tokenize_error_iff, ?_, ?_, ?_, ?_⟩
  · constructor
    · intro success us stop rest e tiles stuck
      obtain ⟨ts, run⟩ := success
      rw [stuck.tokenize_eq tiles] at run
      cases run
    · intro free
      obtain ⟨us, stop, rest, tiles, rfl | ⟨e, stuck⟩⟩ := exists_tiles 0 source.toList
      · exact ⟨_, tiles.tokenize_eq.2⟩
      · exact absurd stuck (free us stop rest e tiles)
  · intro us stop rest tiles
    refine ⟨tiles.sliceAt, tiles.increasing.1, fun t mem => ⟨(tiles.increasing.2 t mem).2, ?_⟩⟩
    obtain ⟨k, before, text, behind, split, offset, word, longest⟩ := tiles.exists_word mem
    have slice : SliceAt source t.offset text behind := ⟨before, split, by rw [offset, Nat.zero_add]⟩
    exact ⟨k, text, behind, slice, word, longest, slice.isBoundary⟩
  · intro e refused
    obtain ⟨us, stop, rest, tiles, stuck⟩ := tokenize_error_iff.1 refused
    refine ⟨stuck.isBoundary tiles, ?_⟩
    obtain ⟨before, split, rfl⟩ := tiles.sliceAt
    cases stuck with
    | @stray c cs => exact .inr ⟨c, cs, rfl, ⟨before, split, rfl⟩, rfl⟩
    | hanging => exact .inl rfl
  · intro read reads
    rw [utf8Bytes_eq]
    exact sameResult_scanBytes reads 0 source.toList

/-- The numeral that a text is, if it is one. -/
def numeralOf? (text : String) : Option Numeral :=
  match NumeralSpan.scan text.toList with
  | .ok s => some (.ofDecimal s.decimal)
  | .error _ => none

/-- A stray character of two bytes behind a number that starts with its point. -/
theorem stray_tiled :
    (∃ us stop rest, Tiles 0 "x .5é".toList us stop rest ∧ Stuck stop rest ⟨4, .strayCharacter 'é'⟩ ∧
      us.Pairwise (·.offset < ·.offset)) ∧
    IsBoundary "x .5é" 4 ∧
    SameResult numeralOf? (scanBytes numeralOf? 0 (utf8Bytes "x .5é")) (.error ⟨4, .strayCharacter 'é'⟩) := by
  have refused : tokenize "x .5é" = .error ⟨4, .strayCharacter 'é'⟩ := by cbv
  have reads : ∀ s : NumeralSpan, s.WellFormed → (numeralOf? (String.ofList s.characters)).isSome = true := by
    intro s formed
    rw [numeralOf?, String.toList_ofList, NumeralSpan.scan_characters formed]
    rfl
  obtain ⟨-, error, -, slices, places, bytes⟩ := tokenize_tiles "x .5é"
  obtain ⟨us, stop, rest, tiles, stuck⟩ := (error _).1 refused
  refine ⟨⟨us, stop, rest, tiles, stuck, (slices us stop rest tiles).2.1⟩, (places _ refused).1, ?_⟩
  have same := bytes numeralOf? reads
  rwa [refused] at same

end ShaderDag
