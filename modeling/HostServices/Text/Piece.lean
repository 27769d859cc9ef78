import HostServices.Bytes.Search
import HostServices.Word

/-!
# Pieces of formatted text

A format call is a list of pieces rendered in order. Each piece yields one fragment of UTF-8 bytes,
except `Piece.failing`, at which the whole call stops: what was rendered before it stays, what comes
after it is lost. A `Rendering` is what a call hands to its writer, the fragments in order and
whether the call stopped early.

Widths and precisions count code points and not bytes. A precision shortens text only and is
applied before the width; a width never cuts.
-/

namespace HostServices

/-- The UTF-8 bytes of a text. -/
def utf8 (s : String) : Bytes :=
  s.toUTF8.toList

theorem toList_loop_eq (array : ByteArray) (i : Nat) (bytes : Bytes) :
    ByteArray.toList.loop array i bytes = bytes.reverse ++ array.data.toList.drop i := by
  fun_induction ByteArray.toList.loop array i bytes with
  | case1 i bytes h ih =>
    have hi : i < array.data.toList.length := h
    rw [ih, List.drop_eq_getElem_cons hi]
    simp [ByteArray.get!, h]
  | case2 i bytes h => rw [List.drop_eq_nil_of_le (Nat.le_of_not_lt h), List.append_nil]

/-- A text is written character by character. -/
theorem utf8_eq_flatMap (s : String) : utf8 s = s.toList.flatMap String.utf8EncodeChar := by
  have h : s.toByteArray = s.toList.utf8Encode := by
    rw [← String.toByteArray_ofList, String.ofList_toList]
  show ByteArray.toList.loop s.toUTF8 0 [] = _
  rw [toList_loop_eq, String.toUTF8_eq_toByteArray, h, List.utf8Encode, List.toList_data_toByteArray,
    List.reverse_nil, List.nil_append, List.drop_zero]

theorem utf8_append (s t : String) : utf8 (s ++ t) = utf8 s ++ utf8 t := by
  rw [utf8_eq_flatMap, utf8_eq_flatMap, utf8_eq_flatMap, String.toList_append, List.flatMap_append]

/-- Where a value stands in a field that is wider than it. -/
inductive Align where
  | left
  | right
  /-- In the middle, with the extra space on the right. -/
  | centre
deriving DecidableEq, Repr

/-- A value that a piece shows. -/
inductive Value where
  | text (s : String)
  | integer (n : Int)
deriving DecidableEq, Repr

namespace Value

/-- The characters of a value. Only text heeds a precision. -/
def characters (precision? : Option Nat) : Value → List Char
  | text s => match precision? with
    | some p => s.toList.take p
    | none => s.toList
  | integer n => (toString n).toList

/-- Text stands at the left of its field, numbers at the right. -/
def defaultAlign : Value → Align
  | text _ => .left
  | integer _ => .right

end Value

/-- The characters in a field of at least `width` code points, filled up with spaces. -/
def padTo (width : Nat) (align : Align) (chars : List Char) : List Char :=
  -- The subtraction stops at zero, so a value wider than its field is left alone.
  let gap := width - chars.length
  match align with
  | .left => chars ++ List.replicate gap ' '
  | .right => List.replicate gap ' ' ++ chars
  | .centre => List.replicate (gap / 2) ' ' ++ chars ++ List.replicate (gap - gap / 2) ' '

/-- The lower-case hexadecimal digits of a number, with leading zeros up to `width`. A negative
number shows as the word that holds it in two's complement. -/
def hexDigits (width : Nat) (n : Int) : List Char :=
  let digits := Nat.toDigits 16 (if n < 0 then (n % Word.count).toNat else n.toNat)
  List.replicate (width - digits.length) '0' ++ digits

/-- One part of a format call. -/
inductive Piece where
  /-- A value in a field. -/
  | shown (v : Value) (width : Nat) (align? : Option Align) (precision? : Option Nat)
  /-- A text several times over. -/
  | repeated (s : String) (times : Nat)
  /-- A number in hexadecimal. -/
  | hex (n : Int) (width : Nat)
  /-- A value whose formatting fails. -/
  | failing
deriving DecidableEq, Repr

namespace Piece

/-- A text as it is. -/
def text (s : String) : Piece := shown (.text s) 0 none none

/-- A number in decimal. -/
def integer (n : Int) : Piece := shown (.integer n) 0 none none

/-- The bytes of a piece, or `none` if its formatting fails. -/
def fragment? : Piece → Option Bytes
  | shown v width align? precision? =>
    some <| utf8 <| String.ofList <|
      padTo width (align?.getD v.defaultAlign) (v.characters precision?)
  | repeated s times => some (List.replicate times (utf8 s)).flatten
  | hex n width => some (utf8 (String.ofList (hexDigits width n)))
  | failing => none

end Piece

/-- What one format call hands to its writer. -/
structure Rendering where
  /-- The fragments, in the order in which they are written. -/
  fragments : List Bytes
  /-- Whether the formatting of a value failed after these fragments. -/
  failed : Bool
deriving DecidableEq, Repr

namespace Rendering

/-- The text of the call, up to the failure if there is one. -/
def bytes (r : Rendering) : Bytes := r.fragments.flatten

/-- The call that renders the pieces in order and stops at the first failing one. -/
def ofPieces : List Piece → Rendering
  | [] => ⟨[], false⟩
  | p :: ps => match p.fragment? with
    | none => ⟨[], true⟩
    | some fragment => { ofPieces ps with fragments := fragment :: (ofPieces ps).fragments }

/-- One part of a format call after another: the second is reached only if the first did not
fail. -/
def andThen (r s : Rendering) : Rendering :=
  if r.failed then r else ⟨r.fragments ++ s.fragments, s.failed⟩

theorem failed_andThen (r s : Rendering) : (r.andThen s).failed = (r.failed || s.failed) := by
  obtain ⟨fragments, failed⟩ := r
  cases failed <;> rfl

/-- The text of the second part follows that of the first, unless the first failed. -/
theorem bytes_andThen (r s : Rendering) :
    (r.andThen s).bytes = r.bytes ++ if r.failed then [] else s.bytes := by
  obtain ⟨fragments, failed⟩ := r
  cases failed with
  | true => exact (List.append_nil _).symm
  | false => exact List.flatten_append

end Rendering

end HostServices
