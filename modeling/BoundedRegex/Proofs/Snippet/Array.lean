import BoundedRegex.Proofs.Text.Cutting
import BoundedRegex.Proofs.Text.Numeral
import BoundedRegex.Snippet

/-!
# The array of a declaration

`arrayAfter?` is what is read behind the colon of a declaration.  It reads back the array that is
written (`arrayAfter?_array`); and it never reads over a quotation mark, so that nothing behind one
has any influence on it (`arrayAfter?_append`).
-/

namespace BoundedRegex.Snippet

open Text

/-- The bytes of the array whose declaration goes on, after the colon, with some text. -/
def arrayAfter? (text : List Char) : Option (List UInt8) := do
  let (type, value) ← splitOnce? '=' text
  let length ← arrayLength? type
  let bytes ← arrayBytes? value
  if bytes.length = length then some bytes else none

theorem declared?_eq (text name : String) :
    declared? text name =
      (declaration? ("static " ++ name).toList text.toList).bind arrayAfter? :=
  rfl

/-- The items between commas that count. -/
def items (text : List Char) : List (List Char) :=
  ((pieces ',' text).map trim).filter (· ≠ [])

variable {c : Char} {text rest item : List Char} {bytes : List UInt8} {b : UInt8} {n : Nat}

/-- The bytes between brackets, read from behind the opening one. -/
theorem arrayBytes?_of_trimStart (h : trimStart text = '[' :: rest) :
    arrayBytes? text = (splitOnce? ']' rest).bind fun (body, _) => (items body).mapM byte? := by
  unfold arrayBytes?
  rw [h]
  rfl

/-! ### Reading back what is written -/

theorem items_cons_of_blank (h : isBlank c = true) : items (c :: text) = items text := by
  have hne : c ≠ ',' := fun heq => by rw [heq] at h; revert h; decide
  obtain ⟨piece, more, hpieces, hcons⟩ := exists_pieces_cons hne text
  rw [items, items, hcons, hpieces, List.map_cons, List.map_cons, trim_cons_of_blank h]

/-- How a byte is written: as something to be trimmed no further, with no comma in it. -/
theorem hexByte_spec (b : UInt8) :
    trim (hexByte b).toList = (hexByte b).toList ∧ (hexByte b).toList ≠ [] ∧
      ',' ∉ (hexByte b).toList ∧ ']' ∉ (hexByte b).toList ∧ byte? (hexByte b).toList = some b := by
  have h : ∀ n : Fin 256, trim (hexByte (.ofNat n)).toList = (hexByte (.ofNat n)).toList ∧
      (hexByte (.ofNat n)).toList ≠ [] ∧ ',' ∉ (hexByte (.ofNat n)).toList ∧
      ']' ∉ (hexByte (.ofNat n)).toList ∧ byte? (hexByte (.ofNat n)).toList = some (.ofNat n) := by
    decide +kernel
  have hb := h ⟨b.toNat, b.toNat_lt⟩
  rwa [UInt8.ofNat_toNat] at hb

theorem items_hexByte (b : UInt8) (text : List Char) :
    items ((hexByte b).toList ++ ',' :: text) = (hexByte b).toList :: items text := by
  obtain ⟨htrim, hne, hcomma, -, -⟩ := hexByte_spec b
  rw [items, pieces_append_cons hcomma, List.map_cons, htrim,
    List.filter_cons_of_pos (by simpa using hne), ← items]

/-- The items of a line are its bytes. -/
theorem items_line (line : List UInt8) (text : List Char) :
    items ((String.join (line.map fun b => " " ++ hexByte b ++ ",")).toList ++ text) =
      line.map (fun b => (hexByte b).toList) ++ items text := by
  rw [String.toList_join]
  induction line with
  | nil => rfl
  | cons b line ih =>
    simp only [List.map_cons, List.flatMap_cons, String.toList_append, String.reduceToList,
      List.cons_append, List.nil_append, List.append_assoc]
    rw [items_cons_of_blank (by decide), items_hexByte, ih]

/-- The items of the lines of an array are its bytes. -/
theorem items_arrayLines (bytes : List UInt8) (text : List Char) :
    items ((String.join (arrayLines bytes)).toList ++ text) =
      bytes.map (fun b => (hexByte b).toList) ++ items text := by
  fun_induction arrayLines bytes with
  | case1 => rfl
  | case2 b rest line ih =>
    have hbytes : line ++ rest.drop (bytesPerLine - 1) = b :: rest :=
      List.take_append_drop bytesPerLine (b :: rest)
    -- The blanks around a line and the comma behind its last byte leave no item.
    have hspace (text : List Char) : items (' ' :: text) = items text := items_cons_of_blank rfl
    have hfeed (text : List Char) : items ('\n' :: text) = items text := items_cons_of_blank rfl
    simp only [String.toList_join, List.flatMap_cons, String.toList_append, String.reduceToList,
      List.cons_append, List.nil_append, List.append_assoc, hspace]
    rw [← String.toList_join, items_line, hfeed, ← String.toList_join, ih, ← List.append_assoc,
      ← List.map_append, hbytes]

theorem mapM_byte? (bytes : List UInt8) :
    (bytes.map fun b => (hexByte b).toList).mapM byte? = some bytes := by
  induction bytes with
  | nil => rfl
  | cons b bytes ih =>
    obtain ⟨-, -, -, -, hb⟩ := hexByte_spec b
    rw [List.map_cons, List.mapM_cons, hb, ih]
    rfl

/-- The lines of an array have no characters but those of the bytes and what divides them. -/
theorem not_mem_arrayLines (hbyte : ∀ b, c ∉ (hexByte b).toList) (hc : c ∉ [' ', ',', '\n'])
    (bytes : List UInt8) : c ∉ (String.join (arrayLines bytes)).toList := by
  simp only [List.mem_cons, List.not_mem_nil, or_false, not_or] at hc
  fun_induction arrayLines bytes with
  | case1 => exact List.not_mem_nil
  | case2 b rest line ih =>
    rw [String.toList_join] at ih ⊢
    simp [String.toList_join, hbyte, hc, ih]

/-- The type of an array is read back as its length. -/
theorem arrayLength?_type (h : n ≤ maxSize) :
    arrayLength? (" [u8; ".toList ++ (toString n).toList ++ "] ".toList) = some n := by
  have hblank (c : Char) (hc : c ∈ Nat.toDigits 10 n) : isBlank c = false :=
    isBlank_of_isDigit (isDigit_of_mem_toDigits hc)
  have htype : trim (" [u8; ".toList ++ (toString n).toList ++ "] ".toList) =
      '[' :: (['u', '8', ';', ' '] ++ Nat.toDigits 10 n ++ [']']) := by
    simp [trim, trimStart, List.dropWhile, isBlank]
  have hsplit : splitOnce? ';' (['u', '8', ';', ' '] ++ Nat.toDigits 10 n) =
      some (['u', '8'], ' ' :: Nat.toDigits 10 n) :=
    splitOnce?_eq_some_iff.2 ⟨rfl, by decide⟩
  have hlength : trim (' ' :: Nat.toDigits 10 n) = Nat.toDigits 10 n := by
    rw [trim_cons_of_blank rfl]
    exact trim_eq_self (trimStart_eq_self hblank)
      (trimStart_eq_self fun c hc => hblank c (List.mem_reverse.1 hc))
  rw [arrayLength?, htype]
  simp only [List.getLast?_concat, List.dropLast_concat, hsplit, Option.bind_eq_bind,
    Option.bind_some, hlength, size?_toDigits h]
  exact if_pos (by decide)

/-- What is written behind the colon of a declaration. -/
def arrayText (bytes : List UInt8) : String :=
  " [u8; " ++ toString bytes.length ++ "] = [\n" ++ String.join (arrayLines bytes) ++ "];\n"

/-- **The array that is written is read back**, whatever follows it. -/
theorem arrayAfter?_arrayText (h : bytes.length ≤ maxSize) (rest : List Char) :
    arrayAfter? ((arrayText bytes).toList ++ rest) = some bytes := by
  have htext : (arrayText bytes).toList ++ rest =
      (" [u8; ".toList ++ (toString bytes.length).toList ++ "] ".toList) ++ '=' :: ' ' :: '[' ::
        ('\n' :: (String.join (arrayLines bytes)).toList ++ ']' :: ';' :: '\n' :: rest) := by
    simp [arrayText]
  have hdigits : '=' ∉ Nat.toDigits 10 bytes.length := fun h =>
    absurd (isDigit_of_mem_toDigits h) (by decide)
  have hinside : ']' ∉ (String.join (arrayLines bytes)).toList :=
    not_mem_arrayLines (fun b => (hexByte_spec b).2.2.2.1) (by decide) bytes
  have htype := splitOnce?_eq_some_iff.2 ⟨htext, by simpa using hdigits⟩
  have hbody : splitOnce? ']'
      ('\n' :: (String.join (arrayLines bytes)).toList ++ ']' :: ';' :: '\n' :: rest) =
        some ('\n' :: (String.join (arrayLines bytes)).toList, ';' :: '\n' :: rest) :=
    splitOnce?_eq_some_iff.2 ⟨rfl, by simpa using hinside⟩
  have hitems : items ('\n' :: (String.join (arrayLines bytes)).toList) =
      bytes.map fun b => (hexByte b).toList := by
    rw [items_cons_of_blank rfl, ← List.append_nil (String.join _).toList, items_arrayLines]
    exact List.append_nil _
  have hvalue : arrayBytes? (' ' :: '[' ::
      ('\n' :: (String.join (arrayLines bytes)).toList ++ ']' :: ';' :: '\n' :: rest)) =
        some bytes := by
    rw [arrayBytes?_of_trimStart rfl, hbody]
    simp only [Option.bind_some, hitems, mapM_byte?]
  simp only [arrayAfter?, htype, Option.bind_eq_bind, Option.bind_some, arrayLength?_type h, hvalue]
  exact if_pos trivial

/-! ### Quotation marks -/

theorem numeral?_of_quote {base bound : Nat} (h : '"' ∈ text) : numeral? base bound text = none := by
  cases hn : numeral? base bound text with
  | none => rfl
  | some n => exact absurd (mem_of_numeral? hn h) (by decide)

/-- No byte is written with a quotation mark. -/
theorem byte?_of_quote (h : '"' ∈ item) : byte? item = none := by
  have htail {c d : Char} {digits : List Char} (hc : '"' ≠ c) (hd : '"' ≠ d)
      (h : '"' ∈ c :: d :: digits) : '"' ∈ digits :=
    (List.mem_cons.1 ((List.mem_cons.1 h).resolve_left hc)).resolve_left hd
  unfold byte?
  split
  · rw [numeral?_of_quote (htail (by decide) (by decide) h), Option.map_none]
  · rw [numeral?_of_quote (htail (by decide) (by decide) h), Option.map_none]
  · rw [numeral?_of_quote h, Option.map_none]

/-- The type of an array has no quotation mark in it. -/
theorem arrayLength?_of_quote (h : '"' ∈ text) : arrayLength? text = none := by
  rw [← mem_trim (c := '"') rfl] at h
  unfold arrayLength?
  split
  · next inside heq =>
    rw [heq, List.mem_cons, or_iff_right (by decide)] at h
    split
    · next hlast =>
      obtain ⟨front, rfl⟩ := List.getLast?_eq_some_iff.1 hlast
      rw [List.mem_append, or_iff_left (by decide)] at h
      rw [List.dropLast_concat]
      cases hsplit : splitOnce? ';' front with
      | none => rfl
      | some parts =>
        obtain ⟨element, length⟩ := parts
        obtain ⟨rfl, -⟩ := splitOnce?_eq_some_iff.1 hsplit
        show (if trim element = ['u', '8'] then size? (trim length) else none) = none
        split
        · next helement =>
          rw [List.mem_append, ← @mem_trim '"' element rfl, helement,
            or_iff_right (by decide), List.mem_cons, or_iff_right (by decide),
            ← mem_trim (c := '"') rfl] at h
          exact numeral?_of_quote h
        · rfl
    · rfl
  · rfl

/-- The bytes of an array are not read over a quotation mark. -/
theorem mapM_items_of_quote (h : '"' ∈ text) : (items text).mapM byte? = none := by
  obtain ⟨piece, hpiece, hmem⟩ := exists_mem_pieces (c := ',') (by decide) h
  rw [← mem_trim (c := '"') rfl] at hmem
  have hitem : trim piece ∈ items text :=
    List.mem_filter.2 ⟨List.mem_map_of_mem hpiece,
      decide_eq_true (List.ne_nil_of_mem hmem)⟩
  generalize items text = read at hitem
  induction read with
  | nil => cases hitem
  | cons item read ih =>
    rw [List.mapM_cons]
    rcases List.mem_cons.1 hitem with rfl | hitem
    · rw [byte?_of_quote hmem]; rfl
    · rw [ih hitem]
      cases byte? item <;> rfl

theorem arrayBytes?_append (h : '"' ∈ text) (rest : List Char) :
    arrayBytes? (text ++ rest) = arrayBytes? text := by
  have htrim : trimStart (text ++ rest) = trimStart text ++ rest := trimStart_append rfl h
  rw [← mem_trimStart (c := '"') rfl] at h
  obtain ⟨c, inside, hinside⟩ := List.exists_cons_of_ne_nil (List.ne_nil_of_mem h)
  rw [hinside] at h htrim
  by_cases hc : c = '['
  · subst hc
    have hmem : '"' ∈ inside := (List.mem_cons.1 h).resolve_left (by decide)
    rw [arrayBytes?_of_trimStart hinside, arrayBytes?_of_trimStart htrim,
      List.append_eq]
    cases hsplit : splitOnce? ']' inside with
    | some parts => rw [splitOnce?_append hsplit]; rfl
    | none =>
      -- Without a bracket that closes, nothing is read, or too much.
      cases hsplit' : splitOnce? ']' (inside ++ rest) with
      | none => rfl
      | some parts =>
        have hstart := prefix_of_splitOnce?_append (splitOnce?_eq_none_iff.1 hsplit) hsplit'
        exact mapM_items_of_quote (hstart.subset hmem)
  · unfold arrayBytes?
    rw [htrim, hinside]
    simp [hc]

/-- **What follows a quotation mark has no influence** on what is read from before it. -/
theorem arrayAfter?_append (h : '"' ∈ text) (rest : List Char) :
    arrayAfter? (text ++ rest) = arrayAfter? text := by
  unfold arrayAfter?
  cases hsplit : splitOnce? '=' text with
  | some parts =>
    obtain ⟨type, value⟩ := parts
    rw [splitOnce?_append hsplit]
    obtain ⟨rfl, -⟩ := splitOnce?_eq_some_iff.1 hsplit
    simp only [Option.bind_eq_bind, Option.bind_some]
    rw [List.mem_append, List.mem_cons, or_iff_right (b := '"' ∈ value) (by decide)] at h
    rcases h with h | h
    · rw [arrayLength?_of_quote h, Option.bind_none, Option.bind_none]
    · rw [arrayBytes?_append h]
  | none =>
    cases hsplit' : splitOnce? '=' (text ++ rest) with
    | none => rfl
    | some parts =>
      -- The type reaches over the quotation mark to a `=` behind it.
      obtain ⟨type, value⟩ := parts
      have hstart := prefix_of_splitOnce?_append (splitOnce?_eq_none_iff.1 hsplit) hsplit'
      simp only [Option.bind_eq_bind, Option.bind_some, arrayLength?_of_quote (hstart.subset h),
        Option.bind_none]

end BoundedRegex.Snippet
