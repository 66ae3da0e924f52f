import ChunkedArray.Json.Reader
import ChunkedArray.Json.Writer

/-!
# Documents as bytes

The bytes of a text are read as its characters, so a document that is stored is read again exactly if
its text is.
-/

namespace ChunkedArray

namespace Bytes

theorem toList_loop (bs : ByteArray) (i : Nat) (before : List UInt8) :
    ByteArray.toList.loop bs i before = before.reverse ++ bs.data.toList.drop i := by
  fun_induction ByteArray.toList.loop bs i before with
  | case1 i before hi ih =>
    have hlength : i < bs.data.toList.length := hi
    have hget : bs.get! i = bs.data.toList[i] := getElem!_pos bs.data i hi
    rw [ih, List.drop_eq_getElem_cons hlength, hget, List.reverse_cons, List.append_assoc]
    rfl
  | case2 i before hi =>
    have hlength : bs.data.toList.length ≤ i := Nat.le_of_not_lt hi
    rw [List.drop_eq_nil_of_le hlength, List.append_nil]

theorem toList_toUTF8 (cs : List Char) :
    (String.ofList cs).toUTF8.toList = cs.flatMap String.utf8EncodeChar := by
  have hdata : (String.ofList cs).toUTF8.toList = (String.ofList cs).toByteArray.data.toList :=
    toList_loop _ 0 []
  rw [hdata, String.toByteArray_ofList, List.utf8Encode, List.toList_data_toByteArray]

end Bytes

namespace Json.Source

theorem ofBytes_utf8EncodeChar (c : Char) (bs : Bytes) :
    ofBytes (String.utf8EncodeChar c ++ bs) = some c :: ofBytes bs := by
  have hlength : (String.utf8EncodeChar c).length = c.utf8Size := String.length_utf8EncodeChar c
  have hle : c.utf8Size ≤ 4 := c.utf8Size_le_four
  obtain ⟨b, rest, he⟩ := List.exists_cons_of_length_pos (hlength.symm ▸ c.utf8Size_pos)
  rw [he, List.length_cons] at hlength
  -- A character has four bytes at most, and what follows it is not looked at.
  have hwindow : b :: (rest ++ bs).take 3 =
      String.utf8EncodeChar c ++ bs.take (3 - rest.length) := by
    rw [he, List.cons_append, List.take_append, List.take_of_length_le (by omega)]
  have hfirst : (ByteArray.mk (b :: (rest ++ bs).take 3).toArray).utf8DecodeChar? 0 = some c := by
    have hbytes : ByteArray.mk (b :: (rest ++ bs).take 3).toArray =
        (String.utf8EncodeChar c).toByteArray ++ (bs.take (3 - rest.length)).toByteArray := by
      rw [hwindow, ← List.toByteArray_append, ByteArray.ext_iff, List.data_toByteArray]
    rw [hbytes, ByteArray.utf8DecodeChar?_utf8EncodeChar_append]
  have hdrop : (rest ++ bs).drop (c.utf8Size - 1) = bs := by
    rw [← hlength, Nat.add_sub_cancel, List.drop_left]
  rw [he, List.cons_append, ofBytes, hfirst]
  simp only [hdrop]

theorem ofBytes_toUTF8 (text : String) : ofBytes text.toUTF8.toList = ofText text := by
  have hencoded (cs : List Char) : ofBytes (cs.flatMap String.utf8EncodeChar) = cs.map some := by
    induction cs with
    | nil => rw [List.flatMap_nil, ofBytes, List.map_nil]
    | cons c cs ih => rw [List.flatMap_cons, ofBytes_utf8EncodeChar, ih, List.map_cons]
  have htext := Bytes.toList_toUTF8 text.toList
  rw [String.ofList_toList] at htext
  rw [htext, hencoded, ofText]

end Json.Source

namespace RawJson

theorem ofBytes?_toUTF8 (text : String) : ofBytes? text.toUTF8.toList = ofText? text := by
  rw [ofBytes?, ofText?, Json.Source.ofBytes_toUTF8]

/-- The document is read from its text as it was written. -/
def ReadsBack (x : RawJson) : Prop := ofText? x.pretty = some x

end RawJson

end ChunkedArray
