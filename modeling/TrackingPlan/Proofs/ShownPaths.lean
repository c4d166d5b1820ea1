import TrackingPlan.Proofs.NormalPaths

/-!
# Paths as they are shown

A name that is no text is shown with a replacement character in the place of what is no character.
The characters below 128 are bytes of their own, which no other character contains, so that this
changes no slash and makes no dots: `Path.components_shown` says that a path is shown component by
component.
-/

namespace TrackingPlan

namespace Text

variable {a c : Char} {cs ds text : List Char} {b lead : UInt8} {bs rest : List UInt8}
  {name : String} {skip : Nat}

/-! ## Bytes that are characters of their own -/

/-- A byte from a number of at least 128 is at least 128. -/
theorem le_ofNat {n : Nat} (hlower : 0x80 ≤ n) (hupper : n < 0x100) : 0x80 ≤ UInt8.ofNat n := by
  rw [UInt8.le_iff_toNat_le, UInt8.toNat_ofNat_of_lt' hupper]
  exact hlower

/-- A character has one byte below 128, or several from 128 on. -/
theorem utf8EncodeChar_cases (c : Char) :
    (c.toNat < 0x80 ∧ String.utf8EncodeChar c = [UInt8.ofNat c.toNat]) ∨
      (0x80 ≤ c.toNat ∧ ∀ b ∈ String.utf8EncodeChar c, 0x80 ≤ b) := by
  fun_cases String.utf8EncodeChar c with
  | case1 v hone => exact .inl ⟨Nat.lt_succ_of_le hone, rfl⟩
  | case2 v hone =>
      refine .inr ⟨Nat.lt_of_not_le hone, ?_⟩
      simp only [List.mem_cons, List.not_mem_nil, or_false]
      rintro b (rfl | rfl) <;> exact le_ofNat (by omega) (by omega)
  | case3 v hone =>
      refine .inr ⟨Nat.lt_of_not_le hone, ?_⟩
      simp only [List.mem_cons, List.not_mem_nil, or_false]
      rintro b (rfl | rfl | rfl) <;> exact le_ofNat (by omega) (by omega)
  | case4 v hone =>
      refine .inr ⟨Nat.lt_of_not_le hone, ?_⟩
      simp only [List.mem_cons, List.not_mem_nil, or_false]
      rintro b (rfl | rfl | rfl | rfl) <;> exact le_ofNat (by omega) (by omega)

/-- A character of less than 128 has one byte. -/
theorem utf8EncodeChar_of_lt (ha : a.toNat < 0x80) :
    String.utf8EncodeChar a = [UInt8.ofNat a.toNat] := by
  rcases utf8EncodeChar_cases a with ⟨-, hone⟩ | ⟨hmore, -⟩
  · exact hone
  · exact absurd ha (Nat.not_lt.2 hmore)

/-- A character of less than 128 has a byte of less than 128. -/
theorem ofNat_toNat_lt (ha : a.toNat < 0x80) : UInt8.ofNat a.toNat < 0x80 := by
  rw [UInt8.lt_iff_toNat_lt, UInt8.toNat_ofNat_of_lt' (Nat.lt_trans ha (by decide))]
  exact ha

/-- A byte below 128 is a character of its own. -/
theorem utf8EncodeChar_of_mem (h : b ∈ String.utf8EncodeChar c) (hb : b < 0x80) :
    String.utf8EncodeChar c = [b] := by
  rcases utf8EncodeChar_cases c with ⟨-, hone⟩ | ⟨-, hmore⟩
  · rw [hone] at h ⊢
    rw [List.mem_singleton.1 h]
  · exact absurd (UInt8.lt_of_lt_of_le hb (hmore b h)) (UInt8.lt_irrefl b)

/-- A character is decoded from bytes just if they start with its own. -/
theorem utf8DecodeChar?_eq_some_iff :
    bs.toByteArray.utf8DecodeChar? 0 = some c ↔ String.utf8EncodeChar c <+: bs := by
  constructor
  · intro h
    have hsplit := ByteArray.eq_of_utf8DecodeChar?_eq_some h
    have hlist (bytes : ByteArray) : bytes.data.toList.toByteArray = bytes :=
      ByteArray.ext (by simp)
    rw [← hlist (ByteArray.extract _ _ _), ← List.toByteArray_append,
      List.toByteArray_inj] at hsplit
    exact ⟨_, hsplit.symm⟩
  · rintro ⟨rest, rfl⟩
    rw [List.toByteArray_append, ← List.utf8Encode_singleton]
    exact List.utf8DecodeChar?_utf8Encode_singleton_append

/-- A byte below 128 does not change what is decoded from the bytes before it. -/
theorem utf8DecodeChar?_append_cons (hb : b < 0x80) (lead : UInt8) (bs rest : List UInt8) :
    (lead :: (bs ++ b :: rest)).toByteArray.utf8DecodeChar? 0 =
      (lead :: bs).toByteArray.utf8DecodeChar? 0 := by
  refine Option.ext fun c => ?_
  rw [utf8DecodeChar?_eq_some_iff, utf8DecodeChar?_eq_some_iff, ← List.cons_append]
  -- no character goes on past such a byte
  have hpast : ¬(lead :: bs) ++ [b] <+: String.utf8EncodeChar c := by
    intro h
    have hone := utf8EncodeChar_of_mem (h.subset (by simp)) hb
    have hlength := h.length_le
    simp [hone] at hlength
  have hbyte : lead :: bs ++ [b] <+: lead :: bs ++ b :: rest := by simp
  refine ⟨fun h => ?_, fun h => h.trans (List.prefix_append _ _)⟩
  rcases List.prefix_or_prefix_of_prefix h hbyte with hbefore | hmore
  · rcases List.prefix_concat_iff.1 hbefore with heq | hwithin
    · exact absurd (heq ▸ List.prefix_refl _) hpast
    · exact hwithin
  · exact absurd hmore hpast

/-- A byte below 128 belongs to no character that is begun before it. -/
theorem begun_append_cons (hb : b < 0x80) (lead : UInt8) (bs rest : List UInt8) :
    begun lead (bs ++ b :: rest) = begun lead bs := by
  have htail : isTail b = false := by
    have hnot : ¬0x80 ≤ b := fun hle => UInt8.lt_irrefl b (UInt8.lt_of_lt_of_le hb hle)
    simp [isTail, hnot]
  cases bs with
  | nil => simp [begun, mayFollow, htail]
  | cons next bs =>
      have hstop : (bs ++ b :: rest).takeWhile isTail = bs.takeWhile isTail := by
        induction bs with
        | nil => simp [htail]
        | cons c bs ih => rw [List.cons_append, List.takeWhile_cons, List.takeWhile_cons, ih]
      rw [List.cons_append, begun, begun, hstop]

/-- No more bytes are begun than there are. -/
theorem begun_le_length (lead : UInt8) (bs : List UInt8) : begun lead bs ≤ bs.length := by
  cases bs with
  | nil => exact Nat.le_refl 0
  | cons next bs =>
      rw [begun]
      have hwithin := ((List.take_sublist (tailLength lead - 1) _).trans
        (List.takeWhile_sublist isTail (l := bs))).length_le
      split
      · rw [List.length_cons]
        omega
      · exact Nat.zero_le _

/-- What stands before and behind a character below 128 is decoded apart. -/
theorem decoded_append_cons (ha : a.toNat < 0x80) (rest : List UInt8) (hskip : skip ≤ bs.length) :
    decoded skip (bs ++ UInt8.ofNat a.toNat :: rest) = decoded skip bs ++ a :: decoded 0 rest := by
  have hone := utf8EncodeChar_of_lt ha
  have hb := ofNat_toNat_lt ha
  induction bs generalizing skip with
  | nil =>
      obtain rfl : skip = 0 := Nat.le_zero.1 hskip
      rw [List.nil_append, ← List.singleton_append, ← hone, decoded_utf8EncodeChar]
      rfl
  | cons lead bs ih =>
      cases skip with
      | succ skip => exact ih (Nat.le_of_succ_le_succ hskip)
      | zero =>
          rw [List.cons_append, decoded, decoded, utf8DecodeChar?_append_cons hb,
            begun_append_cons hb]
          cases hc : (lead :: bs).toByteArray.utf8DecodeChar? 0 with
          | none => exact congrArg _ (ih (begun_le_length lead bs))
          | some c =>
              have hlength := (utf8DecodeChar?_eq_some_iff.1 hc).length_le
              rw [String.length_utf8EncodeChar, List.length_cons] at hlength
              exact congrArg _ (ih (by omega))

/-! ## Characters of names -/

/-- A character of less than 128 is no stray byte. -/
theorem stray?_eq_none_of_lt (mark : Char) (ha : a.toNat < 0x80) : stray? mark a = none := by
  have hnot : ¬0x80 ≤ a.toNat := Nat.not_le.2 ha
  simp [stray?, hnot]

/-- There is no stray byte behind another character than the mark. -/
theorem stray?_eq_none_of_ne (hmark : a ≠ '\x00') (c : Char) : stray? a c = none := by
  simp [stray?, hmark]

/-- What stands before and behind a character below 128 has bytes of its own. -/
theorem bytesOf_append_cons (ha : a.toNat < 0x80) (hmark : a ≠ '\x00') (cs ds : List Char) :
    bytesOf (cs ++ a :: ds) = bytesOf cs ++ String.utf8EncodeChar a ++ bytesOf ds := by
  have hcons : bytesOf (a :: ds) = String.utf8EncodeChar a ++ bytesOf ds := by
    cases ds with
    | nil => simp [bytesOf]
    | cons c ds => rw [bytesOf, stray?_eq_none_of_ne hmark]
  fun_induction bytesOf cs with
  | case1 => exact hcons
  | case2 c =>
      rw [List.singleton_append, bytesOf, stray?_eq_none_of_lt c ha]
      dsimp only
      rw [hcons, List.append_assoc]
  | case3 mark c cs b hb ih =>
      rw [List.cons_append, List.cons_append, bytesOf, hb]
      dsimp only
      rw [ih]
      rfl
  | case4 mark c cs hnone ih =>
      rw [List.cons_append, List.cons_append, bytesOf, hnone]
      dsimp only
      rw [← List.cons_append, ih]
      simp

/-- What is shown of a name before and behind such a character is shown apart. -/
theorem decoded_bytesOf_append_cons (ha : a.toNat < 0x80) (hmark : a ≠ '\x00')
    (cs ds : List Char) : decoded 0 (bytesOf (cs ++ a :: ds)) =
      decoded 0 (bytesOf cs) ++ a :: decoded 0 (bytesOf ds) := by
  rw [bytesOf_append_cons ha hmark, utf8EncodeChar_of_lt ha, List.append_assoc,
    List.singleton_append]
  exact decoded_append_cons ha _ (Nat.zero_le _)

/-- A character below 128 is shown only where it stands. -/
theorem mem_of_mem_decoded (h : a ∈ decoded skip bs) (ha : a.toNat < 0x80) :
    UInt8.ofNat a.toNat ∈ bs := by
  fun_induction decoded skip bs with
  | case1 skip => cases h
  | case2 skip b rest ih => exact List.mem_cons_of_mem b (ih h)
  | case3 lead rest c hc ih =>
      rcases List.mem_cons.1 h with rfl | hrest
      · refine (utf8DecodeChar?_eq_some_iff.1 hc).subset ?_
        exact utf8EncodeChar_of_lt ha ▸ List.mem_singleton_self _
      · exact List.mem_cons_of_mem lead (ih hrest)
  | case4 lead rest hnone ih =>
      rcases List.mem_cons.1 h with rfl | hrest
      · exact absurd ha (by decide)
      · exact List.mem_cons_of_mem lead (ih hrest)

/-- The byte of a character below 128 is no stray byte and belongs to no other character. -/
theorem eq_of_mem_utf8EncodeChar (h : UInt8.ofNat a.toNat ∈ String.utf8EncodeChar c)
    (ha : a.toNat < 0x80) : a = c := by
  have hbytes : String.utf8EncodeChar c = String.utf8EncodeChar a :=
    (utf8EncodeChar_of_mem h (ofNat_toNat_lt ha)).trans (utf8EncodeChar_of_lt ha).symm
  have hdecoded := congrArg (decoded 0 <| · ++ []) hbytes
  simp only [decoded_utf8EncodeChar] at hdecoded
  exact (List.cons.inj hdecoded).1.symm

/-- A stray byte is at least 128. -/
theorem le_of_stray? (h : stray? a c = some b) : 0x80 ≤ b := by
  unfold stray? at h
  split at h
  next hbounds =>
    obtain rfl := Option.some.inj h
    simp only [Bool.and_eq_true, decide_eq_true_eq] at hbounds
    exact le_ofNat hbounds.1.2 (Nat.lt_succ_of_le hbounds.2)
  next => cases h

/-- The byte of a character below 128 is in a name only where that character stands. -/
theorem mem_of_mem_bytesOf (h : UInt8.ofNat a.toNat ∈ bytesOf cs) (ha : a.toNat < 0x80) :
    a ∈ cs := by
  fun_induction bytesOf cs with
  | case1 => cases h
  | case2 c => exact List.mem_singleton.2 (eq_of_mem_utf8EncodeChar h ha)
  | case3 mark c rest b hb ih =>
      rcases List.mem_cons.1 h with rfl | hrest
      · have hlt := UInt8.lt_of_lt_of_le (ofNat_toNat_lt ha) (le_of_stray? hb)
        exact absurd hlt (UInt8.lt_irrefl _)
      · exact List.mem_cons_of_mem mark (List.mem_cons_of_mem c (ih hrest))
  | case4 mark c rest hnone ih =>
      rcases List.mem_append.1 h with hfirst | hrest
      · exact eq_of_mem_utf8EncodeChar hfirst ha ▸ List.mem_cons_self
      · exact List.mem_cons_of_mem mark (ih hrest)

/-! ## Names that are shown as texts of such characters -/

/-- What is shown with such a character in front starts with it. -/
theorem exists_of_decoded_eq_cons (h : decoded 0 bs = a :: text) (ha : a.toNat < 0x80) :
    ∃ rest, bs = UInt8.ofNat a.toNat :: rest ∧ decoded 0 rest = text := by
  cases bs with
  | nil => cases h
  | cons lead rest =>
      rw [decoded] at h
      cases hc : (lead :: rest).toByteArray.utf8DecodeChar? 0 with
      | none =>
          rw [hc] at h
          exact absurd ((List.cons.inj h).1 ▸ ha) (by decide)
      | some c =>
          rw [hc] at h
          obtain ⟨rfl, hrest⟩ := List.cons.inj h
          have hbytes := utf8DecodeChar?_eq_some_iff.1 hc
          have hsize := congrArg List.length (utf8EncodeChar_of_lt ha)
          rw [utf8EncodeChar_of_lt ha, List.cons_prefix_cons] at hbytes
          rw [String.length_utf8EncodeChar, List.length_singleton] at hsize
          rw [hsize] at hrest
          exact ⟨rest, hbytes.1 ▸ rfl, hrest⟩

/-- A name whose bytes start with such a character starts with it. -/
theorem exists_of_bytesOf_eq_cons (h : bytesOf cs = UInt8.ofNat a.toNat :: bs)
    (ha : a.toNat < 0x80) : ∃ ds, cs = a :: ds ∧ bytesOf ds = bs := by
  have hfirst {c : Char} {rest : List UInt8}
      (hbytes : String.utf8EncodeChar c ++ rest = UInt8.ofNat a.toNat :: bs) :
      c = a ∧ rest = bs := by
    obtain ⟨lead, tail, hlead⟩ := List.exists_cons_of_ne_nil (@String.utf8EncodeChar_ne_nil c)
    rw [hlead, List.cons_append, List.cons.injEq] at hbytes
    obtain ⟨rfl, rfl⟩ := hbytes
    obtain rfl : a = c := eq_of_mem_utf8EncodeChar (by simp [hlead]) ha
    rw [utf8EncodeChar_of_lt ha, List.cons.injEq] at hlead
    exact ⟨rfl, by rw [← hlead.2, List.nil_append]⟩
  fun_cases bytesOf cs with
  | case1 => cases h
  | case2 c =>
      obtain ⟨rfl, rfl⟩ := @hfirst c [] ((List.append_nil _).trans h)
      exact ⟨[], rfl, rfl⟩
  | case3 mark c rest b hb =>
      rw [bytesOf, hb] at h
      have hle := le_of_stray? hb
      rw [(List.cons.inj h).1] at hle
      exact absurd (UInt8.lt_of_lt_of_le (ofNat_toNat_lt ha) hle) (UInt8.lt_irrefl _)
  | case4 mark c rest hnone =>
      rw [bytesOf, hnone] at h
      obtain ⟨rfl, hrest⟩ := hfirst h
      exact ⟨_, rfl, hrest⟩

/-- A name that is not empty has bytes. -/
theorem bytesOf_ne_nil (h : cs ≠ []) : bytesOf cs ≠ [] := by
  fun_cases bytesOf cs with
  | case1 => exact absurd rfl h
  | case2 c => exact String.utf8EncodeChar_ne_nil
  | case3 mark c rest b hb => exact List.cons_ne_nil _ _
  | case4 mark c rest hnone =>
      exact List.append_ne_nil_of_left_ne_nil String.utf8EncodeChar_ne_nil _

/-- Bytes that are there are shown as something. -/
theorem decoded_ne_nil (h : bs ≠ []) : decoded 0 bs ≠ [] := by
  cases bs with
  | nil => exact absurd rfl h
  | cons lead rest =>
      rw [decoded]
      split <;> exact List.cons_ne_nil _ _

/-- A name is shown as a text of such characters only if it is that text. -/
theorem eq_of_decoded_bytesOf (h : decoded 0 (bytesOf cs) = text)
    (htext : ∀ a ∈ text, a.toNat < 0x80) : cs = text := by
  induction text generalizing cs with
  | nil =>
      by_contra hne
      exact decoded_ne_nil (bytesOf_ne_nil hne) h
  | cons a text ih =>
      have ha := htext a List.mem_cons_self
      obtain ⟨rest, hrest, hmore⟩ := exists_of_decoded_eq_cons h ha
      obtain ⟨ds, rfl, hds⟩ := exists_of_bytesOf_eq_cons hrest ha
      have hsame : ds = text := ih (hds ▸ hmore) fun a ha => htext a (List.mem_cons_of_mem _ ha)
      rw [hsame]

/-! ## Shown names -/

/-- What is shown for a name is what its bytes are decoded as. -/
theorem toList_shown (name : String) : (shown name).toList = decoded 0 (bytesOf name.toList) :=
  String.toList_ofList

/-- No slash is shown that is not there. -/
theorem no_slash_shown (h : '/' ∉ name.toList) : '/' ∉ (shown name).toList := by
  rw [toList_shown]
  intro hmem
  exact h (mem_of_mem_bytesOf (mem_of_mem_decoded hmem (by decide)) (by decide))

/-- A name is shown as a text of characters below 128 only if it is that text. -/
theorem shown_eq_iff {text : String} (hlow : ∀ a ∈ text.toList, a.toNat < 0x80)
    (hplain : isPlain text = true) : shown name = text ↔ name = text := by
  constructor
  · intro hshown
    have hchars : decoded 0 (bytesOf name.toList) = text.toList := by rw [← toList_shown, hshown]
    exact String.toList_injective (eq_of_decoded_bytesOf hchars hlow)
  · rintro rfl
    exact shown_of_isPlain hplain

/-- Only the empty name is shown as nothing. -/
@[simp]
theorem shown_eq_empty_iff : shown name = "" ↔ name = "" := shown_eq_iff (by simp) rfl

/-- Only a dot is shown as a dot. -/
@[simp]
theorem shown_eq_dot_iff : shown name = "." ↔ name = "." := shown_eq_iff (by simp) rfl

/-- Only two dots are shown as two dots. -/
@[simp]
theorem shown_eq_dots_iff : shown name = ".." ↔ name = ".." := shown_eq_iff (by simp) rfl

/-- What stands between the slashes of a text is shown apart. -/
theorem splitOn_decoded (cs : List Char) : (decoded 0 (bytesOf cs)).splitOn '/' =
    (cs.splitOn '/').map fun ds => decoded 0 (bytesOf ds) := by
  induction hlength : cs.length using Nat.strong_induction_on generalizing cs with
  | _ length ih =>
      by_cases hslash : '/' ∈ cs
      · obtain ⟨before, after, rfl, hbefore⟩ := List.eq_append_cons_of_mem hslash
        have hafter := ih after.length (by simp [← hlength]; omega) after rfl
        have hnone : '/' ∉ decoded 0 (bytesOf before) := fun hmem =>
          hbefore (mem_of_mem_bytesOf (mem_of_mem_decoded hmem (by decide)) (by decide))
        rw [decoded_bytesOf_append_cons (by decide) (by decide), List.splitOn_append_cons_self,
          List.splitOn_append_cons_self, hafter, List.map_append, List.splitOn_eq_singleton hbefore,
          List.splitOn_eq_singleton hnone]
        rfl
      · have hnone : '/' ∉ decoded 0 (bytesOf cs) := fun hmem =>
          hslash (mem_of_mem_bytesOf (mem_of_mem_decoded hmem (by decide)) (by decide))
        rw [List.splitOn_eq_singleton hslash, List.splitOn_eq_singleton hnone]
        rfl

end Text

/-- `shown c` is how `c` stands in the text that is shown for a path. -/
def Component.shown : Component → Component
  | .normal name => .normal (Text.shown name)
  | c => c

namespace Path

variable {p q : Path} {piece name : String} {cs : List Component}

/-- The pieces of a path are shown piece by piece. -/
theorem pieces_shown (p : Path) : (Path.mk p.shown).pieces = p.pieces.map Text.shown := by
  rw [pieces_eq, pieces_eq]
  dsimp only [Path.shown]
  rw [Text.toList_shown, Text.splitOn_decoded, List.map_map, List.map_map]
  refine List.map_congr_left fun ds _ => ?_
  simp [Text.shown, Text.bytes]

/-- A piece is a component where it is shown if it is one. -/
theorem component?_shown (piece : String) :
    component? (Text.shown piece) = (component? piece).map Component.shown := by
  simp only [component?, Bool.or_eq_true, decide_eq_true_eq, Text.shown_eq_empty_iff,
    Text.shown_eq_dot_iff, Text.shown_eq_dots_iff]
  split
  · rfl
  · split <;> rfl

/-- A path is absolute where it is shown if it is. -/
theorem isAbsolute_shown (p : Path) : (Path.mk p.shown).isAbsolute = p.isAbsolute := by
  rw [Bool.eq_iff_iff, isAbsolute_iff_pieces, isAbsolute_iff_pieces, pieces_shown]
  cases hpieces : p.pieces with
  | nil => simp
  | cons first rest =>
      cases rest with
      | nil => simp
      | cons second rest => simp

/-- A path is opened in the same way where it is shown. -/
theorem opening_shown (isAbsolute : Bool) (first : String) :
    opening isAbsolute (Text.shown first) = (opening isAbsolute first).map Component.shown := by
  unfold opening
  simp only [component?_shown, Text.shown_eq_dot_iff]
  split
  · rfl
  · split
    · rfl
    · cases component? first <;> rfl

/-- A path is shown component by component. -/
theorem components_shown (p : Path) :
    (Path.mk p.shown).components = p.components.map Component.shown := by
  obtain ⟨first, rest, hpieces⟩ := List.exists_cons_of_ne_nil (pieces_ne_nil p)
  have hshown := pieces_shown p
  rw [hpieces, List.map_cons] at hshown
  rw [components_of_pieces hshown, components_of_pieces hpieces, isAbsolute_shown, opening_shown,
    List.map_append, List.filterMap_map, List.map_filterMap]
  refine congrArg _ (List.filterMap_congr fun piece _ => ?_)
  exact component?_shown piece

/-- What is shown for the name of an entry could be one. -/
theorem IsName.shown (h : IsName name) : IsName (Text.shown name) where
  ne_empty := Text.shown_eq_empty_iff.not.2 h.ne_empty
  ne_dot := Text.shown_eq_dot_iff.not.2 h.ne_dot
  ne_dots := Text.shown_eq_dots_iff.not.2 h.ne_dots
  no_slash := Text.no_slash_shown h.no_slash

/-- Normal components are normal where they are shown. -/
theorem IsNormal.shown (h : IsNormal cs) : IsNormal (cs.map Component.shown) := by
  obtain ⟨start, names, hstart, rfl⟩ := h
  refine ⟨start, names.map Text.shown, hstart, ?_⟩
  have hkept : start.map Component.shown = start := by
    rcases hstart with rfl | ⟨levels, rfl⟩
    · rfl
    · rw [List.map_replicate]
      rfl
  rw [List.map_append, hkept, List.map_map, List.map_map]
  rfl

/-! ## Paths that are texts -/

/-- Joined pieces are a text if all of them are. -/
theorem isPlain_intercalate {pieces : List String} :
    Text.isPlain ("/".intercalate pieces) = true ↔ ∀ piece ∈ pieces, Text.isPlain piece = true := by
  induction pieces with
  | nil => simp [Text.isPlain]
  | cons first rest ih =>
      by_cases hrest : rest = []
      · simp [hrest]
      · have hslash : Text.isPlain "/" = true := rfl
        rw [String.intercalate_cons_of_ne_nil hrest, Text.isPlain_append,
          Text.isPlain_append, hslash, Bool.and_true, Bool.and_eq_true, ih, List.forall_mem_cons]

/-- A path is a text just if its pieces are. -/
theorem isPlain_iff_pieces :
    Text.isPlain p.text = true ↔ ∀ piece ∈ p.pieces, Text.isPlain piece = true := by
  rw [← isPlain_intercalate, intercalate_pieces]

/-- Joined paths are a text if both of them are. -/
theorem isPlain_join (hp : Text.isPlain p.text = true) (hq : Text.isPlain q.text = true) :
    Text.isPlain (p.join q).text = true := by
  have hslash : Text.isPlain "/" = true := rfl
  rw [join]
  split
  · exact hq
  · split <;> simp [Text.isPlain_append, hp, hq, hslash]

/-- Trimming adds no pieces. -/
theorem trimPieces_subset (pieces : List String) : trimPieces pieces ⊆ pieces := by
  fun_induction trimPieces pieces with
  | case1 => exact List.Subset.refl _
  | case2 => exact List.Subset.refl _
  | case3 piece rest hne hblank ih =>
      exact fun other hother => List.mem_cons_of_mem piece (ih hother)
  | case4 piece rest hne hblank => exact List.Subset.refl _

/-- The parent of a text is a text. -/
theorem isPlain_of_parent? (hp : Text.isPlain p.text = true) (h : p.parent? = some q) :
    Text.isPlain q.text = true := by
  unfold parent? at h
  split at h
  next => cases h
  next => cases h
  next => exact Option.some.inj h ▸ rfl
  next last rest hne hmore htrim =>
    split at h
    next => exact Option.some.inj h ▸ rfl
    next hroot =>
      obtain rfl := Option.some.inj h
      refine isPlain_intercalate.2 fun piece hpiece => isPlain_iff_pieces.1 hp piece ?_
      have hrest := trimPieces_subset rest (List.mem_reverse.1 hpiece)
      have hall := trimPieces_subset p.pieces.reverse (htrim ▸ List.mem_cons_of_mem last hrest)
      exact List.mem_reverse.1 hall

/-- Components that are texts make a path that is one. -/
theorem isPlain_ofComponents (h : ∀ c ∈ cs, Text.isPlain c.text = true) :
    Text.isPlain (ofComponents cs).text = true := by
  have hslash : Text.isPlain "/" = true := rfl
  have htexts : ∀ piece ∈ cs.map Component.text, Text.isPlain piece = true := by simpa using h
  unfold ofComponents
  split
  next rest =>
    rw [Text.isPlain_append, hslash, Bool.true_and]
    exact isPlain_intercalate.2 fun piece hpiece => htexts piece (List.mem_cons_of_mem _ hpiece)
  next => exact isPlain_intercalate.2 htexts

/-- To resolve the dots of a path adds nothing that is no text. -/
theorem isPlain_normalize (h : Text.isPlain p.text = true) :
    Text.isPlain p.normalize.text = true := by
  obtain ⟨start, hcomponents, hstart⟩ := components_eq_append p
  have hplain : ∀ c ∈ p.components, Text.isPlain c.text = true := by
    intro c hc
    rw [hcomponents, List.mem_append] at hc
    rcases hc with hopening | hmove
    · rcases hstart with ⟨-, rfl⟩ | ⟨-, rfl | rfl⟩
      · exact List.mem_singleton.1 hopening ▸ rfl
      · exact List.mem_singleton.1 hopening ▸ rfl
      · cases hopening
    · obtain ⟨piece, hpiece, hcomponent⟩ := List.mem_filterMap.1 hmove
      rw [text_of_component? hcomponent]
      exact isPlain_iff_pieces.1 h piece hpiece
  refine isPlain_ofComponents fun c hc => ?_
  rcases mem_foldl_normalizeStep (List.mem_reverse.1 hc) with hnil | hmem | hparent
  · cases hnil
  · exact hplain c hmem
  · exact hparent ▸ rfl

end Path

end TrackingPlan
