import Brust.Support.JsonString

/-!
# Support — framed fields

Concatenations that can be taken apart again: a field after its length (`frames_inj`,
`all_frames_inj`), which is read with what is behind it (`unframe_framed`), and fields joined by a
separator that all but one of them are free of (`append_cons_inj_left`, `append_cons_inj_right`).
Bytes written in hex are a text without separators (`hexText_inj`).
-/

namespace Brust

variable {α : Type}

/-! ### Lengths -/

section
variable {len : ℕ → List α} {width bound : ℕ} (hwidth : ∀ n, (len n).length = width)
  (hinj : ∀ {m n}, m < bound → n < bound → len m = len n → m = n)
include hwidth hinj

/-- A field after its length. -/
theorem framed_append_inj {x y u v : List α} (hx : x.length < bound) (hy : y.length < bound)
    (h : len x.length ++ x ++ u = len y.length ++ y ++ v) : x = y ∧ u = v := by
  rw [List.append_assoc, List.append_assoc] at h
  obtain ⟨hlen, hrest⟩ := List.append_inj h (by rw [hwidth, hwidth])
  exact List.append_inj hrest (hinj hx hy hlen)

/-- **As many fields, each after its length**, are the same fields if they are the same text. -/
theorem frames_inj : ∀ {xs ys : List (List α)}, xs.length = ys.length →
    (∀ x ∈ xs, x.length < bound) → (∀ y ∈ ys, y.length < bound) →
    (xs.flatMap fun x => len x.length ++ x) = (ys.flatMap fun y => len y.length ++ y) → xs = ys
  | [], [], _, _, _, _ => rfl
  | x :: xs, y :: ys, hlen, hx, hy, h => by
      rw [List.flatMap_cons, List.flatMap_cons] at h
      obtain ⟨rfl, hrest⟩ := framed_append_inj hwidth hinj (hx x (by simp)) (hy y (by simp)) h
      rw [frames_inj (Nat.succ.inj hlen) (fun x hx' => hx x (List.mem_cons_of_mem _ hx'))
        (fun y hy' => hy y (List.mem_cons_of_mem _ hy')) hrest]

/-- **Fields after their lengths** are as many fields, too, if the lengths are not empty texts. -/
theorem all_frames_inj (hpos : 0 < width) : ∀ {xs ys : List (List α)},
    (∀ x ∈ xs, x.length < bound) → (∀ y ∈ ys, y.length < bound) →
    (xs.flatMap fun x => len x.length ++ x) = (ys.flatMap fun y => len y.length ++ y) → xs = ys
  | [], [], _, _, _ => rfl
  | x :: xs, [], _, _, h => by
      have hlength := congrArg List.length h
      rw [List.flatMap_cons, List.length_append, List.length_append, hwidth, List.flatMap_nil,
        List.length_nil] at hlength
      omega
  | [], y :: ys, _, _, h => by
      have hlength := congrArg List.length h
      rw [List.flatMap_cons, List.length_append, List.length_append, hwidth, List.flatMap_nil,
        List.length_nil] at hlength
      omega
  | x :: xs, y :: ys, hx, hy, h => by
      rw [List.flatMap_cons, List.flatMap_cons] at h
      obtain ⟨rfl, hrest⟩ := framed_append_inj hwidth hinj (hx x (by simp)) (hy y (by simp)) h
      rw [all_frames_inj hpos (fun x hx' => hx x (List.mem_cons_of_mem _ hx'))
        (fun y hy' => hy y (List.mem_cons_of_mem _ hy')) hrest]

end

/-! ### A field and what is behind it -/

/-- How the length of a field is written in front of it. -/
structure LengthCode (len : ℕ → List α) (readLen : List α → ℕ) (width bound : ℕ) : Prop where
  width : ∀ n, (len n).length = width
  read : ∀ n < bound, ∀ rest, readLen (len n ++ rest) = n

section
variable (len : ℕ → List α) (readLen : List α → ℕ) (width : ℕ)

def framed (field rest : List α) : List α := len field.length ++ field ++ rest

/-- The field after its length, and the rest; none where the text ends before them. -/
def unframe (text : List α) : Option (List α × List α) :=
  if text.length < width then none
  else if text.length < width + readLen text then none
  else some ((text.drop width).take (readLen text), text.drop (width + readLen text))

end

section
variable {len : ℕ → List α} {readLen : List α → ℕ} {width bound : ℕ}

theorem length_framed (code : LengthCode len readLen width bound) (field rest : List α) :
    (framed len field rest).length = width + field.length + rest.length := by
  rw [framed, List.length_append, List.length_append, code.width]

theorem readLen_framed (code : LengthCode len readLen width bound) {field : List α}
    (h : field.length < bound) (rest : List α) :
    readLen (framed len field rest) = field.length := by
  rw [framed, List.append_assoc]
  exact code.read _ h _

theorem drop_framed (code : LengthCode len readLen width bound) (field rest : List α) :
    (framed len field rest).drop width = field ++ rest := by
  rw [framed, List.append_assoc]
  exact List.drop_left' (code.width _)

/-- **A field is read back** where its length can be written. -/
theorem unframe_framed (code : LengthCode len readLen width bound) {field : List α}
    (h : field.length < bound) (rest : List α) :
    unframe readLen width (framed len field rest) = some (field, rest) := by
  have hlen := length_framed code field rest
  have hread := readLen_framed code h rest
  have hdrop := drop_framed code field rest
  rw [unframe, if_neg (by omega), if_neg (by omega), hread, hdrop, List.take_left, ← List.drop_drop,
    hdrop, List.drop_left]

/-- What is read lies in the text, one part behind the other, and nothing else does. -/
theorem unframe_eq_some {text field rest : List α}
    (h : unframe readLen width text = some (field, rest)) :
    field.length = readLen text ∧ text = text.take width ++ (field ++ rest) ∧
      width + field.length + rest.length = text.length := by
  rw [unframe] at h
  split at h
  · cases h
  split at h
  · cases h
  next hwidth hroom =>
    obtain ⟨rfl, rfl⟩ := Prod.mk.inj (Option.some.inj h)
    refine ⟨?_, ?_, ?_⟩
    · rw [List.length_take, List.length_drop]
      omega
    · rw [← List.drop_drop, List.take_append_drop, List.take_append_drop]
    · rw [List.length_take, List.length_drop, List.length_drop]
      omega

end

/-! ### Separators -/

/-- The first separator of a text. -/
theorem append_cons_inj_left {c : α} : ∀ {x y u v : List α}, c ∉ x → c ∉ y →
    x ++ c :: u = y ++ c :: v → x = y ∧ u = v
  | [], [], _, _, _, _, h => ⟨rfl, (List.cons.inj h).2⟩
  | [], d :: y, _, _, _, hy, h => absurd (List.cons.inj h).1 (List.ne_of_not_mem_cons hy)
  | d :: x, [], _, _, hx, _, h => absurd (List.cons.inj h).1.symm (List.ne_of_not_mem_cons hx)
  | d :: x, e :: y, _, _, hx, hy, h => by
      obtain ⟨rfl, htail⟩ := List.cons.inj h
      obtain ⟨rfl, rfl⟩ := append_cons_inj_left (List.not_mem_of_not_mem_cons hx)
        (List.not_mem_of_not_mem_cons hy) htail
      exact ⟨rfl, rfl⟩

/-- A text up to the first that is not of a kind. -/
theorem append_cons_inj_of_all {p : α → Bool} : ∀ {x y u v : List α} {c d : α},
    (∀ a ∈ x, p a = true) → (∀ a ∈ y, p a = true) → p c = false → p d = false →
    x ++ c :: u = y ++ d :: v → x = y ∧ c = d ∧ u = v
  | [], [], _, _, _, _, _, _, _, _, h => ⟨rfl, (List.cons.inj h).1, (List.cons.inj h).2⟩
  | [], e :: y, _, _, _, _, _, hy, hc, _, h => by
      have he := hy e List.mem_cons_self
      rw [← (List.cons.inj h).1, hc] at he
      cases he
  | e :: x, [], _, _, _, _, hx, _, _, hd, h => by
      have he := hx e List.mem_cons_self
      rw [(List.cons.inj h).1, hd] at he
      cases he
  | e :: x, f :: y, _, _, _, _, hx, hy, hc, hd, h => by
      obtain ⟨rfl, htail⟩ := List.cons.inj h
      obtain ⟨rfl, hcd⟩ := append_cons_inj_of_all (fun a ha => hx a (.tail _ ha))
        (fun a ha => hy a (.tail _ ha)) hc hd htail
      exact ⟨rfl, hcd⟩

/-- The last separator of a text. -/
theorem append_cons_inj_right {c : α} {x y u v : List α} (hu : c ∉ u) (hv : c ∉ v)
    (h : x ++ c :: u = y ++ c :: v) : x = y ∧ u = v := by
  have hrev := congrArg List.reverse h
  simp only [List.reverse_append, List.reverse_cons, List.append_assoc, List.singleton_append]
    at hrev
  obtain ⟨huv, hxy⟩ := append_cons_inj_left (by simpa using hu) (by simpa using hv) hrev
  exact ⟨List.reverse_inj.mp hxy, List.reverse_inj.mp huv⟩

/-! ### Hex -/

/-- `to_hex`: two digits a byte. -/
def hexText (bytes : List UInt8) : List Char :=
  bytes.flatMap fun b => [hexDigit (b.toNat / 16), hexDigit (b.toNat % 16)]

theorem hexText_inj : ∀ {xs ys : List UInt8}, hexText xs = hexText ys → xs = ys
  | [], [], _ => rfl
  | x :: xs, [], h => by simp [hexText] at h
  | [], y :: ys, h => by simp [hexText] at h
  | x :: xs, y :: ys, h => by
      simp only [hexText, List.flatMap_cons, List.cons_append, List.nil_append,
        List.cons.injEq] at h
      obtain ⟨hhigh, hlow, hrest⟩ := h
      have hx := x.toNat_lt
      have hy := y.toNat_lt
      have hdiv : x.toNat / 16 = y.toNat / 16 := by
        rw [← hexValue_hexDigit (n := x.toNat / 16) (by omega), hhigh, hexValue_hexDigit (by omega)]
      have hmod : x.toNat % 16 = y.toNat % 16 := by
        rw [← hexValue_hexDigit (n := x.toNat % 16) (by omega), hlow, hexValue_hexDigit (by omega)]
      rw [UInt8.toNat_inj.mp (by omega : x.toNat = y.toNat), hexText_inj hrest]

/-- A digit that `to_hex` writes. -/
def IsHex (c : Char) : Prop := ∃ n < 16, hexDigit n = c

instance : DecidablePred IsHex := fun c =>
  inferInstanceAs (Decidable (∃ n < 16, hexDigit n = c))

theorem isHex_of_all {l : List Char} (h : l.all (fun c => decide (IsHex c)) = true) :
    ∀ d ∈ l, IsHex d := fun d hd => of_decide_eq_true (List.all_eq_true.mp h d hd)

theorem isHex_of_mem_hexText {c : Char} {bytes : List UInt8} (h : c ∈ hexText bytes) : IsHex c := by
  obtain ⟨b, -, hb⟩ := List.mem_flatMap.mp h
  have hlt := b.toNat_lt
  simp only [List.mem_cons, List.not_mem_nil, or_false] at hb
  rcases hb with rfl | rfl
  · exact ⟨_, by omega, rfl⟩
  · exact ⟨_, by omega, rfl⟩

end Brust
