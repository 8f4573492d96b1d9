import KVStores.Redis.ListType

/-!
# What is in a list

The strings of a list object, whatever its encoding.
-/

namespace KVStores.Redis.ListType

@[grind =] def ListObj.bytes : ListObj → List (List UInt8)
  | .ziplist zl => zl.map ZipEntry.bytes
  | .linkedlist l => l.map getDecodedObject

theorem entryObject_bytes (e : ZipEntry) : getDecodedObject (entryObject e) = e.bytes := by
  cases e with
  | str s => rfl
  | int v => rfl

theorem listTypeConvert_bytes (zl : List ZipEntry) : (listTypeConvert zl).bytes = (ListObj.ziplist zl).bytes := by
  show (zl.map entryObject).map getDecodedObject = zl.map ZipEntry.bytes
  rw [List.map_map]
  exact List.map_congr_left fun e _ => entryObject_bytes e

theorem listTypeTryConversion_bytes (cfg : Config) (o : ListObj) (value : Robj) : (listTypeTryConversion cfg o value).bytes = o.bytes := by
  cases o with
  | linkedlist l => rfl
  | ziplist zl =>
    cases value with
    | int v => rfl
    | raw s =>
      rw [listTypeTryConversion]
      by_cases hlong : cfg.listMaxZiplistValue < s.length
      · rw [if_pos hlong, listTypeConvert_bytes]
      · rw [if_neg hlong]

theorem convertLong_bytes (tooMany : ℕ → Bool) (o : ListObj) : (convertLong tooMany o).bytes = o.bytes := by
  cases o with
  | linkedlist l => rfl
  | ziplist zl =>
    rw [convertLong]
    by_cases hlong : tooMany zl.length = true
    · rw [if_pos hlong, listTypeConvert_bytes]
    · rw [if_neg hlong]

theorem pushEnd_map {α β : Type} (f : α → β) (l : List α) (x : α) (w : Where) : (pushEnd l x w).map f = pushEnd (l.map f) (f x) w := by
  cases w with
  | head => rfl
  | tail => exact List.map_append

theorem listTypePush_bytes (cfg : Config) (o : ListObj) (value : Robj) (w : Where) :
    (listTypePush cfg o value w).bytes = pushEnd o.bytes (getDecodedObject value) w := by
  have hsame := (convertLong_bytes (fun n => decide (cfg.listMaxZiplistEntries ≤ n)) (listTypeTryConversion cfg o value)).trans
    (listTypeTryConversion_bytes cfg o value)
  rw [← hsame, listTypePush]
  cases convertLong (fun n => decide (cfg.listMaxZiplistEntries ≤ n)) (listTypeTryConversion cfg o value) with
  | ziplist zl =>
    show (pushEnd zl (zipEntry (getDecodedObject value)) w).map ZipEntry.bytes = _
    rw [pushEnd_map, zipEntry_bytes]
    rfl
  | linkedlist l => exact pushEnd_map getDecodedObject l value w

end KVStores.Redis.ListType
