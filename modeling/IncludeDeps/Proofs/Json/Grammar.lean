import Mathlib.Data.Nat.Notation
import Mathlib.Tactic.Common

/-!
# The grammar of JSON

What a JSON text says, by rules: `Reads text phrase rest` says that a phrase stands
at the beginning of a text and what is left after it.  White space may stand before
every token, and the parts of an array or an object are told from one another by
commas, of which there is none before the first part and none after the last.

Scalars and the characters of a string are read by functions.  The grammar is the
usual one, except that a character must not be written as half a surrogate pair.

The rules leave no choice (`Reads.only`): the first character of a phrase tells
which of them applies.  So a document says one thing only (`Document.unique`).
-/

namespace IncludeDeps.Json

/-- What a JSON text can say. -/
inductive Value where
  /-- Nothing. -/
  | null
  /-- A truth value. -/
  | boolean (truth : Bool)
  /-- A number as it is written. -/
  | number (lexeme : String)
  /-- A text. -/
  | string (text : String)
  /-- A list of values. -/
  | array (items : List Value)
  /-- Keys with their values, in the order in which they are written. -/
  | object (members : List (String × Value))

/-! ## Tokens -/

/-- The white space between tokens. -/
def isSpace (c : Char) : Bool :=
  c == ' ' || c == '\t' || c == '\n' || c == '\r'

/-- The text from its first character that is no white space. -/
def skipSpace (text : List Char) : List Char :=
  text.dropWhile isSpace

theorem skipSpace_append {blanks : List Char} (hblanks : ∀ c ∈ blanks, isSpace c = true)
    (text : List Char) : skipSpace (blanks ++ text) = skipSpace text :=
  List.dropWhile_append_of_pos hblanks

theorem skipSpace_cons {c : Char} (hc : isSpace c = false) (rest : List Char) :
    skipSpace (c :: rest) = c :: rest :=
  List.dropWhile_cons_of_neg (by simp [hc])

/-- The value of a digit in base sixteen. -/
def hexValue? (c : Char) : Option ℕ :=
  if '0' ≤ c ∧ c ≤ '9' then some (c.toNat - '0'.toNat)
  else if 'a' ≤ c ∧ c ≤ 'f' then some (c.toNat - 'a'.toNat + 10)
  else if 'A' ≤ c ∧ c ≤ 'F' then some (c.toNat - 'A'.toNat + 10)
  else none

/-- The number that four digits write. -/
def unit? : List Char → Option (ℕ × List Char)
  | a :: b :: c :: d :: rest => do
    let first ← hexValue? a
    let second ← hexValue? b
    let third ← hexValue? c
    let fourth ← hexValue? d
    return (((first * 16 + second) * 16 + third) * 16 + fourth, rest)
  | _ => none

/-- The character that a text begins with, written by its number.  One that has more
than four digits is written as a surrogate pair. -/
def numbered? (text : List Char) : Option (Char × List Char) := do
  let (high, rest) ← unit? text
  if high < 0xD800 ∨ 0xDFFF < high then return (Char.ofNat high, rest)
  else match rest with
    | '\\' :: 'u' :: text => do
      let (low, rest) ← unit? text
      if high < 0xDC00 ∧ 0xDC00 ≤ low ∧ low ≤ 0xDFFF then
        return (Char.ofNat (0x10000 + (high - 0xD800) * 0x400 + (low - 0xDC00)), rest)
      else none
    | _ => none

/-- The character that a letter after a backslash stands for. -/
def letter? : Char → Option Char
  | '"' => some '"'
  | '\\' => some '\\'
  | '/' => some '/'
  | 'b' => some '\x08'
  | 'f' => some '\x0C'
  | 'n' => some '\n'
  | 'r' => some '\r'
  | 't' => some '\t'
  | _ => none

/-- The first character of a string and how its text goes on. -/
def character? : List Char → Option (Char × List Char)
  | [] => none
  | '\\' :: 'u' :: rest => numbered? rest
  | '\\' :: c :: rest => (letter? c).map fun meant => (meant, rest)
  | c :: rest => if c = '"' ∨ c = '\\' ∨ c.toNat < 0x20 then none else some (c, rest)

/-- What follows one or more digits. -/
def afterDigits? (text : List Char) : Option (List Char) :=
  if text.takeWhile Char.isDigit = [] then none else some (text.dropWhile Char.isDigit)

/-- What follows the part of a number before its point: there is no zero at its
beginning unless it is alone. -/
def afterWhole? : List Char → Option (List Char)
  | '-' :: '0' :: rest => some rest
  | '-' :: rest => afterDigits? rest
  | '0' :: rest => some rest
  | text => afterDigits? text

/-- What follows the part of a number after its point, if it has one. -/
def afterFraction? : List Char → Option (List Char)
  | '.' :: rest => afterDigits? rest
  | text => some text

/-- What follows the exponent of a number, if it has one. -/
def afterExponent? : List Char → Option (List Char)
  | 'e' :: '+' :: rest | 'e' :: '-' :: rest | 'E' :: '+' :: rest | 'E' :: '-' :: rest =>
    afterDigits? rest
  | 'e' :: rest | 'E' :: rest => afterDigits? rest
  | text => some text

/-- The number that a text begins with. -/
def number? (text : List Char) : Option (Value × List Char) := do
  let rest ← afterExponent? (← afterFraction? (← afterWhole? text))
  return (.number (String.ofList (text.take (text.length - rest.length))), rest)

/-- The value without parts that a text begins with, unless it is a string. -/
def scalar? : List Char → Option (Value × List Char)
  | 'n' :: 'u' :: 'l' :: 'l' :: rest => some (.null, rest)
  | 't' :: 'r' :: 'u' :: 'e' :: rest => some (.boolean true, rest)
  | 'f' :: 'a' :: 'l' :: 's' :: 'e' :: rest => some (.boolean false, rest)
  | text => number? text

/-! ## Rules -/

variable {text rest : List Char}

/-- The characters of a string and what follows the quote that ends it. -/
inductive Characters : List Char → List Char → List Char → Prop
  /-- The quote ends the string. -/
  | done {text rest : List Char} (hquote : text = '"' :: rest) : Characters text [] rest
  /-- The string goes on with a character. -/
  | more {text onward written rest : List Char} {c : Char}
      (hcharacter : character? text = some (c, onward)) (honward : Characters onward written rest) :
      Characters text (c :: written) rest

/-- What can be read at the beginning of a text. -/
inductive Phrase where
  /-- A value. -/
  | value (value : Value)
  /-- A key with its value. -/
  | member (key : String) (value : Value)
  /-- The items of an array and the bracket after them, from the first one on or from
  where a comma is due. -/
  | items (first : Bool) (items : List Value)
  /-- The members of an object and the brace after them. -/
  | members (first : Bool) (members : List (String × Value))

/-- A phrase stands at the beginning of a text, with the rest after it. -/
inductive Reads : List Char → Phrase → List Char → Prop
  /-- A truth value, a number or nothing. -/
  | scalar {text rest value} (hscalar : scalar? (skipSpace text) = some (value, rest)) :
      Reads text (.value value) rest
  /-- A string between quotes. -/
  | string {text more written rest} (hopens : skipSpace text = '"' :: more)
      (hwritten : Characters more written rest) :
      Reads text (.value (.string (String.ofList written))) rest
  /-- An array between brackets. -/
  | array {text more values rest} (hopens : skipSpace text = '[' :: more)
      (hitems : Reads more (.items true values) rest) : Reads text (.value (.array values)) rest
  /-- An object between braces. -/
  | object {text more members rest} (hopens : skipSpace text = '\x7b' :: more)
      (hmembers : Reads more (.members true members) rest) :
      Reads text (.value (.object members)) rest
  /-- A string and a value, with a colon between them. -/
  | member {text more written onward after value rest} (hopens : skipSpace text = '"' :: more)
      (hkey : Characters more written onward) (hcolon : skipSpace onward = ':' :: after)
      (hvalue : Reads after (.value value) rest) :
      Reads text (.member (String.ofList written) value) rest
  /-- No item is left. -/
  | itemsEnd {text first rest} (hcloses : skipSpace text = ']' :: rest) :
      Reads text (.items first []) rest
  /-- An item, and the others after it. -/
  | firstItem {text onward value values rest} (hitem : Reads text (.value value) onward)
      (hothers : Reads onward (.items false values) rest) :
      Reads text (.items true (value :: values)) rest
  /-- A comma and one more item at least. -/
  | nextItem {text more value values rest} (hcomma : skipSpace text = ',' :: more)
      (hitems : Reads more (.items true (value :: values)) rest) :
      Reads text (.items false (value :: values)) rest
  /-- No member is left. -/
  | membersEnd {text first rest} (hcloses : skipSpace text = '\x7d' :: rest) :
      Reads text (.members first []) rest
  /-- A member, and the others after it. -/
  | firstMember {text onward key value members rest}
      (hmember : Reads text (.member key value) onward)
      (hothers : Reads onward (.members false members) rest) :
      Reads text (.members true ((key, value) :: members)) rest
  /-- A comma and one more member at least. -/
  | nextMember {text more member members rest} (hcomma : skipSpace text = ',' :: more)
      (hmembers : Reads more (.members true (member :: members)) rest) :
      Reads text (.members false (member :: members)) rest

/-- A text is a document that says a value. -/
def Document (text : String) (value : Value) : Prop :=
  ∃ rest, Reads text.toList (.value value) rest ∧ skipSpace rest = []

/-! ## One reading -/

theorem Characters.unique {written other rest' : List Char} (hfirst : Characters text written rest)
    (hsecond : Characters text other rest') : other = written ∧ rest' = rest := by
  induction hfirst generalizing other with
  | done hquote =>
      cases hsecond with
      | done hquote' => exact ⟨rfl, by simpa [hquote] using hquote'.symm⟩
      | more hcharacter' _ => simp [hquote, character?] at hcharacter'
  | more hcharacter _ ih =>
      cases hsecond with
      | done hquote' => simp [hquote', character?] at hcharacter
      | more hcharacter' honward' =>
          obtain ⟨rfl, rfl⟩ := Prod.ext_iff.mp (Option.some.inj (hcharacter.symm.trans hcharacter'))
          obtain ⟨rfl, rfl⟩ := ih honward'
          exact ⟨rfl, rfl⟩

/-- Nothing but a phrase, and the rest after it, can be read where a phrase of its kind is due. -/
def Phrase.Only (text rest : List Char) : Phrase → Prop
  | .value said => ∀ other rest', Reads text (.value other) rest' → other = said ∧ rest' = rest
  | .member key said => ∀ key' other rest', Reads text (.member key' other) rest' →
      key' = key ∧ other = said ∧ rest' = rest
  | .items first listed => ∀ others rest', Reads text (.items first others) rest' →
      others = listed ∧ rest' = rest
  | .members first listed => ∀ others rest', Reads text (.members first others) rest' →
      others = listed ∧ rest' = rest

theorem scalar?_quote : scalar? ('"' :: rest) = none := rfl

theorem scalar?_bracket : scalar? ('[' :: rest) = none := rfl

theorem scalar?_brace : scalar? ('\x7b' :: rest) = none := rfl

theorem scalar?_closing : scalar? (']' :: rest) = none := rfl

/-- No value begins with a closing bracket. -/
theorem not_reads_closing {value : Value} {more : List Char}
    (hcloses : skipSpace text = ']' :: more) : ¬ Reads text (.value value) rest := by
  intro hreads
  cases hreads with
  | scalar hscalar => simp [hcloses, scalar?_closing] at hscalar
  | string hopens _ => simp [hcloses] at hopens
  | array hopens _ => simp [hcloses] at hopens
  | object hopens _ => simp [hcloses] at hopens

theorem Reads.only {phrase : Phrase} (hreads : Reads text phrase rest) : phrase.Only text rest := by
  induction hreads with
  | scalar hscalar =>
      intro other rest' hother
      cases hother with
      | scalar hscalar' =>
          obtain ⟨rfl, rfl⟩ := Prod.ext_iff.mp (Option.some.inj (hscalar.symm.trans hscalar'))
          exact ⟨rfl, rfl⟩
      | string hopens' _ => simp [hopens', scalar?_quote] at hscalar
      | array hopens' _ => simp [hopens', scalar?_bracket] at hscalar
      | object hopens' _ => simp [hopens', scalar?_brace] at hscalar
  | string hopens hwritten =>
      intro other rest' hother
      cases hother with
      | scalar hscalar' => simp [hopens, scalar?_quote] at hscalar'
      | string hopens' hwritten' =>
          obtain rfl := List.cons_inj_right _ |>.mp (hopens.symm.trans hopens')
          obtain ⟨rfl, rfl⟩ := hwritten.unique hwritten'
          exact ⟨rfl, rfl⟩
      | array hopens' _ => simp [hopens] at hopens'
      | object hopens' _ => simp [hopens] at hopens'
  | array hopens _ ih =>
      intro other rest' hother
      cases hother with
      | scalar hscalar' => simp [hopens, scalar?_bracket] at hscalar'
      | string hopens' _ => simp [hopens] at hopens'
      | array hopens' hitems' =>
          obtain rfl := List.cons_inj_right _ |>.mp (hopens.symm.trans hopens')
          obtain ⟨rfl, rfl⟩ := ih _ _ hitems'
          exact ⟨rfl, rfl⟩
      | object hopens' _ => simp [hopens] at hopens'
  | object hopens _ ih =>
      intro other rest' hother
      cases hother with
      | scalar hscalar' => simp [hopens, scalar?_brace] at hscalar'
      | string hopens' _ => simp [hopens] at hopens'
      | array hopens' _ => simp [hopens] at hopens'
      | object hopens' hmembers' =>
          obtain rfl := List.cons_inj_right _ |>.mp (hopens.symm.trans hopens')
          obtain ⟨rfl, rfl⟩ := ih _ _ hmembers'
          exact ⟨rfl, rfl⟩
  | member hopens hkey hcolon _ ih =>
      intro key' value' rest' hother
      cases hother with
      | member hopens' hkey' hcolon' hvalue' =>
          obtain rfl := List.cons_inj_right _ |>.mp (hopens.symm.trans hopens')
          obtain ⟨rfl, rfl⟩ := hkey.unique hkey'
          obtain rfl := List.cons_inj_right _ |>.mp (hcolon.symm.trans hcolon')
          obtain ⟨rfl, rfl⟩ := ih _ _ hvalue'
          exact ⟨rfl, rfl, rfl⟩
  | itemsEnd hcloses =>
      intro others rest' hothers
      cases hothers with
      | itemsEnd hcloses' =>
          exact ⟨rfl, List.cons_inj_right _ |>.mp (hcloses'.symm.trans hcloses)⟩
      | firstItem hitem' _ => exact absurd hitem' (not_reads_closing hcloses)
      | nextItem hcomma' _ => simp [hcloses] at hcomma'
  | firstItem hitem _ ihitem ihothers =>
      intro others rest' hothers
      cases hothers with
      | itemsEnd hcloses' => exact absurd hitem (not_reads_closing hcloses')
      | firstItem hitem' hothers' =>
          obtain ⟨rfl, rfl⟩ := ihitem _ _ hitem'
          obtain ⟨rfl, rfl⟩ := ihothers _ _ hothers'
          exact ⟨rfl, rfl⟩
  | nextItem hcomma _ ih =>
      intro others rest' hothers
      cases hothers with
      | itemsEnd hcloses' => simp [hcomma] at hcloses'
      | nextItem hcomma' hitems' =>
          obtain rfl := List.cons_inj_right _ |>.mp (hcomma.symm.trans hcomma')
          exact ih _ _ hitems'
  | membersEnd hcloses =>
      intro others rest' hothers
      cases hothers with
      | membersEnd hcloses' =>
          exact ⟨rfl, List.cons_inj_right _ |>.mp (hcloses'.symm.trans hcloses)⟩
      | firstMember hmember' _ =>
          cases hmember' with
          | member hopens' _ _ _ => simp [hcloses] at hopens'
      | nextMember hcomma' _ => simp [hcloses] at hcomma'
  | firstMember hmember _ ihmember ihothers =>
      intro others rest' hothers
      cases hothers with
      | membersEnd hcloses' =>
          cases hmember with
          | member hopens _ _ _ => simp [hcloses'] at hopens
      | firstMember hmember' hothers' =>
          obtain ⟨rfl, rfl, rfl⟩ := ihmember _ _ _ hmember'
          obtain ⟨rfl, rfl⟩ := ihothers _ _ hothers'
          exact ⟨rfl, rfl⟩
  | nextMember hcomma _ ih =>
      intro others rest' hothers
      cases hothers with
      | membersEnd hcloses' => simp [hcomma] at hcloses'
      | nextMember hcomma' hmembers' =>
          obtain rfl := List.cons_inj_right _ |>.mp (hcomma.symm.trans hcomma')
          exact ih _ _ hmembers'

/-- A document says one thing. -/
theorem Document.unique {document : String} {value other : Value}
    (hfirst : Document document value) (hsecond : Document document other) : other = value := by
  obtain ⟨rest, hreads, -⟩ := hfirst
  obtain ⟨rest', hother, -⟩ := hsecond
  exact (hreads.only other rest' hother).1

end IncludeDeps.Json
