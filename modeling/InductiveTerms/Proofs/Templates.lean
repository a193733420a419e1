import InductiveTerms.Config.Basic
import InductiveTerms.Proofs.TextReplacement
import Mathlib.Tactic.LinearCombination
import Mathlib.Tactic.Zify

/-!
The names of specialized functions. Replacing the placeholders one after another fills the places of
the template at once, as long as a name that is put in forms no placeholder
(`toList_specializedName`). A template that is accepted has a place for the name or for the index,
and two functions of a bundle get different names unless they have the same name but for digits and
the end of a name can be taken for the start of an index (`specializedName_ne`). This cannot happen
if only the index is mentioned (`specializedName_ne_of_no_name`), nor where no template is given and
the names of the functions are free of braces (`default_specializedName_ne`).
-/
namespace InductiveTerms

open Text

/-- A letter of a template: a character, or a place for what is put in. -/
inductive Letter where
  | char (c : Char)
  | name
  | index
  deriving DecidableEq, Repr

namespace Letter

/-- What a letter becomes for a name and an index. -/
def fill (name index : List Char) : Letter → List Char
  | .char c => [c]
  | .name => name
  | .index => index

def IsPlace : Letter → Prop
  | .char _ => False
  | _ => True

instance : DecidablePred IsPlace
  | .char _ => isFalse id
  | .name => isTrue trivial
  | .index => isTrue trivial

/-- A text without places. -/
def ofString (s : String) : List Letter := s.toList.map .char

theorem not_isPlace_of_mem_ofString {s : String} {a : Letter} (h : a ∈ ofString s) :
    ¬ a.IsPlace := by
  obtain ⟨c, _, rfl⟩ := List.mem_map.1 h
  exact id

variable {name index piece s : List Char} {L L' new : List Letter}

theorem flatMap_fill_char : (s.map char).flatMap (fill name index) = s := by
  induction s with
  | nil => rfl
  | cons c s ih => simp [fill, ih]

@[simp] theorem flatMap_fill_ofString (s : String) :
    (ofString s).flatMap (fill name index) = s.toList := flatMap_fill_char

/-- No occurrence of a piece in a filled template takes in any of what is put in. -/
def Avoids (piece name index : List Char) (L : List Letter) : Prop :=
  ∀ P a Q x y, L = P ++ a :: Q → a.IsPlace → L.flatMap (fill name index) = x ++ piece ++ y →
    x.length + piece.length ≤ (P.flatMap (fill name index)).length ∨
      (P.flatMap (fill name index)).length + (fill name index a).length ≤ x.length

theorem Avoids.tail {a : Letter} (h : Avoids piece name index (a :: L)) :
    Avoids piece name index L := by
  intro P b Q x y hL hb hxy
  have hplace := h (a :: P) b Q (fill name index a ++ x) y (by simp [hL]) hb (by simp [hxy])
  simp only [List.flatMap_cons, List.length_append] at hplace
  omega

theorem Avoids.of_append (h : Avoids piece name index (L' ++ L)) : Avoids piece name index L := by
  induction L' with
  | nil => exact h
  | cons a L' ih => exact ih h.tail

theorem prefix_of_prefix_fill (hfront : piece <+: L.flatMap (fill name index))
    (hplaces : ∀ P a Q, L = P ++ a :: Q → a.IsPlace →
      piece.length ≤ (P.flatMap (fill name index)).length) : piece.map char <+: L := by
  induction piece generalizing L with
  | nil => exact List.nil_prefix
  | cons c piece ih =>
    cases L with
    | nil => exact absurd (List.prefix_nil.1 hfront) (List.cons_ne_nil c piece)
    | cons a L =>
      cases a with
      | char c' =>
        obtain ⟨rfl, hrest⟩ := List.cons_prefix_cons.1 hfront
        refine List.cons_prefix_cons.2 ⟨rfl, ih hrest fun P a Q hL ha => ?_⟩
        have hlength := hplaces (.char c :: P) a Q (by simp [hL]) ha
        simpa [fill] using hlength
      | _ => exact absurd (hplaces [] _ L rfl trivial) (by simp)

theorem Avoids.prefix_template {c : Char} (hL : Avoids piece name index (.char c :: L))
    (hfront : piece <+: (Letter.char c :: L).flatMap (fill name index)) :
    piece.map char <+: .char c :: L := by
  refine prefix_of_prefix_fill hfront fun P a Q hP ha => ?_
  obtain ⟨y, hy⟩ := hfront
  cases P with
  | nil =>
    obtain ⟨rfl, _⟩ := List.cons.inj hP
    cases ha
  | cons b P =>
    obtain ⟨rfl, _⟩ := List.cons.inj hP
    have hplace := hL (.char c :: P) a Q [] y hP ha hy.symm
    simp only [List.flatMap_cons, fill, List.length_append, List.length_singleton,
      List.length_nil] at hplace ⊢
    omega

/-- Where no occurrence of a piece takes in what is put in, the piece may be replaced before. -/
theorem replaced_fill (h : Replaced (piece.map char) new L L') (hpiece : piece ≠ [])
    (hL : Avoids piece name index L) :
    Replaced piece (new.flatMap (fill name index)) (L.flatMap (fill name index))
      (L'.flatMap (fill name index)) := by
  induction h with
  | nil => exact .nil
  | piece _ ih =>
    rw [List.flatMap_append, List.flatMap_append, flatMap_fill_char]
    exact .piece (ih hL.of_append)
  | @other a s t hno _ ih =>
    cases a with
    | char c => exact .other (fun hfront => hno (hL.prefix_template hfront)) (ih hL.tail)
    | _ =>
      refine (ih hL.tail).append_left fun x y hxy => ?_
      have hlength := List.length_pos_iff.2 hpiece
      have hplace := hL [] _ s x y rfl trivial hxy
      simp only [List.flatMap_nil, List.length_nil] at hplace
      omega

theorem avoids_of_no_place (piece name index : List Char) (hL : ∀ a ∈ L, ¬ a.IsPlace) :
    Avoids piece name index L := by
  intro P a Q x y hP ha
  exact absurd ha (hL a (hP ▸ List.mem_append_right _ List.mem_cons_self))

theorem replaceFrom_fill (new : List Letter) (hpiece : piece ≠ [])
    (hL : Avoids piece name index L) :
    replaceFrom piece (new.flatMap (fill name index)) 0 (L.flatMap (fill name index)) =
      (replaceFrom (piece.map char) new 0 L).flatMap (fill name index) := by
  have hreplaced : Replaced (piece.map char) new L (replaceFrom (piece.map char) new 0 L) :=
    replaced_replaceFrom (by simpa using hpiece) L
  exact ((replaced_fill hreplaced hpiece hL).eq_replaceFrom hpiece).symm

/-- After an opening brace no place comes before a closing one. -/
def OutsideBraces (L : List Letter) : Prop :=
  ∀ s ∈ L.tails, s.head? = some (.char '\x7b') → ∀ a ∈ s.takeWhile (· ≠ .char '\x7d'), ¬ a.IsPlace

instance : DecidablePred OutsideBraces := fun L => inferInstanceAs (Decidable (∀ s ∈ L.tails, _))

theorem outsideBraces_cons (hL : ∀ a ∈ L, ¬ a.IsPlace) : OutsideBraces (.name :: L) := by
  intro s hs hhead a ha
  rw [List.mem_tails, List.suffix_cons_iff] at hs
  rcases hs with rfl | hs
  · cases hhead
  · exact hL a (hs.subset ((List.takeWhile_sublist _).subset ha))

theorem OutsideBraces.closed {P Q R : List Letter} {a : Letter} (hL : OutsideBraces L)
    (h : L = P ++ .char '\x7b' :: R ++ a :: Q) (ha : a.IsPlace) : .char '\x7d' ∈ R := by
  by_contra hopen
  have hinside : ∀ b ∈ Letter.char '\x7b' :: R, b ≠ .char '\x7d' := by
    simp only [List.forall_mem_cons]
    exact ⟨by decide, fun b hb h => hopen (h ▸ hb)⟩
  have hplace : a ≠ .char '\x7d' := by
    rintro rfl
    exact ha
  refine hL (.char '\x7b' :: R ++ a :: Q) ?_ rfl a ?_ ha
  · rw [List.mem_tails, h, List.append_assoc]
    exact List.suffix_append _ _
  · rw [List.takeWhile_append_of_pos (by simpa using hinside),
      List.takeWhile_cons_of_pos (by simpa using hplace)]
    exact List.mem_append_right _ List.mem_cons_self

theorem exists_char_of_fill {c : Char} (hname : c ∉ name) (hindex : c ∉ index) {x z : List Char}
    (h : L.flatMap (fill name index) = x ++ c :: z) : ∃ P Q, L = P ++ .char c :: Q ∧
      P.flatMap (fill name index) = x ∧ Q.flatMap (fill name index) = z := by
  induction L generalizing x with
  | nil => exact absurd h (by simp)
  | cons a L ih =>
    rw [List.flatMap_cons, List.append_eq_append_iff] at h
    rcases h with ⟨u, rfl, h⟩ | ⟨u, ha, h⟩
    · obtain ⟨P, Q, rfl, rfl, rfl⟩ := ih h
      exact ⟨a :: P, Q, rfl, rfl, rfl⟩
    cases u with
    | nil =>
      obtain ⟨P, Q, rfl, hP, rfl⟩ := ih (x := []) h.symm
      refine ⟨a :: P, Q, rfl, ?_, rfl⟩
      rw [List.flatMap_cons, hP, ha, List.append_nil, List.append_nil]
    | cons c' u =>
      obtain ⟨rfl, rfl⟩ := List.cons.inj h
      have hmem : c ∈ fill name index a := ha ▸ List.mem_append_right _ List.mem_cons_self
      cases a with
      | char c' =>
        obtain rfl := List.mem_singleton.1 hmem
        cases x with
        | nil =>
          obtain rfl := (List.cons.inj ha).2
          exact ⟨[], L, rfl, rfl, rfl⟩
        | cons b x => exact absurd ha (by simp [fill])
      | name => exact absurd hmem hname
      | index => exact absurd hmem hindex

theorem split_cases {a b : Letter} {P P' Q Q' : List Letter} (hab : a ≠ b)
    (h : P ++ a :: Q = P' ++ b :: Q') :
    (∃ R, P' = P ++ a :: R) ∨ ∃ R, P = P' ++ b :: R ∧ Q' = R ++ a :: Q := by
  rcases List.append_eq_append_iff.1 h with ⟨R, rfl, hR⟩ | ⟨R, rfl, hR⟩
  · cases R with
    | nil => exact absurd (List.cons.inj hR).1 hab
    | cons c R =>
      obtain ⟨rfl, _⟩ := List.cons.inj hR
      exact .inl ⟨R, rfl⟩
  · cases R with
    | nil => exact absurd (List.cons.inj hR).1.symm hab
    | cons c R =>
      obtain ⟨rfl, hQ⟩ := List.cons.inj hR
      exact .inr ⟨R, rfl, hQ⟩

theorem length_le_of_not_mem {c : Char} {p r y w : List Char} (hc : c ∉ p)
    (h : p ++ c :: y = r ++ c :: w) : p.length ≤ r.length := by
  rcases List.append_eq_append_iff.1 h with ⟨u, rfl, _⟩ | ⟨u, rfl, hu⟩
  · simp
  · cases u with
    | nil => simp
    | cons b u =>
      obtain ⟨rfl, _⟩ := List.cons.inj hu
      exact absurd (List.mem_append_right _ List.mem_cons_self) hc

/-- A name without opening braces that is put in outside of braces is no part of a piece in
braces: the braces of the piece are those of the template, and the closing one comes first. -/
theorem avoids_of_outsideBraces {p : List Char} (hL : OutsideBraces L) (hname : '\x7b' ∉ name)
    (hindex : '\x7b' ∉ index) (hp : '\x7d' ∉ p) :
    Avoids ('\x7b' :: p ++ ['\x7d']) name index L := by
  intro P a Q x y hP ha hxy
  obtain ⟨P', Q', hP', rfl, hQ'⟩ := exists_char_of_fill (c := '\x7b') (z := p ++ '\x7d' :: y) hname
    hindex (by simpa using hxy)
  have hab : a ≠ .char '\x7b' := by
    rintro rfl
    exact ha
  rcases split_cases hab (hP.symm.trans hP') with ⟨R, rfl⟩ | ⟨R, rfl, rfl⟩
  · refine .inr ?_
    simp only [List.flatMap_append, List.flatMap_cons, List.length_append]
    omega
  · obtain ⟨R₁, R₂, rfl⟩ := List.append_of_mem (hL.closed hP ha)
    have hle := length_le_of_not_mem (r := R₁.flatMap (fill name index))
      (w := R₂.flatMap (fill name index) ++ (a :: Q).flatMap (fill name index)) hp
      (by simpa [fill] using hQ'.symm)
    refine .inl ?_
    simp only [List.flatMap_append, List.flatMap_cons, List.length_append, List.length_cons, fill,
      List.length_nil]
    omega

section Counting

theorem countP_fill (p : Char → Bool) (T : List Letter) (name index : List Char) :
    (T.flatMap (fill name index)).countP p = (T.flatMap (fill [] [])).countP p +
      T.count .name * name.countP p + T.count .index * index.countP p := by
  induction T with
  | nil => simp
  | cons a T ih =>
    cases a <;> simp [fill, ih, List.countP_append, List.countP_cons, Nat.add_mul] <;> omega

theorem length_fill (T : List Letter) (name index : List Char) :
    (T.flatMap (fill name index)).length = (T.flatMap (fill [] [])).length +
      T.count .name * name.length + T.count .index * index.length := by
  have hcount := countP_fill (fun _ => true) T name index
  simpa only [List.countP_true] using hcount

/-- A template tells apart what is put in if all that is put in one place has one length. -/
theorem fill_injective {T : List Letter} {n m d e : List Char}
    (h : T.flatMap (fill n d) = T.flatMap (fill m e)) (hname : .name ∈ T → n.length = m.length)
    (hindex : .index ∈ T → d.length = e.length) :
    (.name ∈ T → n = m) ∧ (.index ∈ T → d = e) := by
  induction T with
  | nil => exact ⟨nofun, nofun⟩
  | cons a T ih =>
    have hlength : (fill n d a).length = (fill m e a).length := by
      cases a with
      | char c => rfl
      | name => exact hname List.mem_cons_self
      | index => exact hindex List.mem_cons_self
    obtain ⟨ha, hT⟩ := List.append_inj h hlength
    obtain ⟨hn, hd⟩ := ih hT (fun hmem => hname (List.mem_cons_of_mem _ hmem))
      (fun hmem => hindex (List.mem_cons_of_mem _ hmem))
    cases a with
    | char c => exact ⟨by simpa using hn, by simpa using hd⟩
    | name => exact ⟨fun _ => ha, by simpa using hd⟩
    | index => exact ⟨by simpa using hn, fun _ => ha⟩

theorem split_unique {p : Char → Bool} {c c' : Char} {x x' y y' : List Char} (hc : p c)
    (hc' : p c') (h : x ++ c :: x' = y ++ c' :: y') (hcount : x.countP p = y.countP p) : x = y := by
  induction x generalizing y with
  | nil =>
    cases y with
    | nil => rfl
    | cons b y =>
      obtain ⟨rfl, _⟩ := List.cons.inj h
      simp [hc] at hcount
  | cons a x ih =>
    cases y with
    | nil =>
      obtain ⟨rfl, _⟩ := List.cons.inj h
      simp [hc'] at hcount
    | cons b y =>
      obtain ⟨rfl, hrest⟩ := List.cons.inj h
      rw [ih hrest (by simpa [List.countP_cons] using hcount)]

theorem eq_of_proportion {a b a' b' x y u v : Nat} (h : a * x + b * u = a * y + b * v)
    (h' : a' * x + b' * u = a' * y + b' * v) (hne : a' * b ≠ b' * a) : x = y ∧ u = v := by
  zify at h h' hne ⊢
  have hdiff : (a' * b - b' * a : ℤ) ≠ 0 := sub_ne_zero.2 hne
  constructor
  · refine mul_left_cancel₀ hdiff ?_
    linear_combination b * h' - b' * h
  · refine mul_left_cancel₀ hdiff ?_
    linear_combination a' * h - a * h'

theorem isDigit_repr (i : Nat) : ∀ c ∈ i.repr.toList, c.isDigit := by
  intro c hc
  rw [Nat.toList_repr] at hc
  exact Nat.isDigit_of_mem_toDigits (by decide) (by decide) hc

theorem toList_repr_injective {i j : Nat} (h : i.repr.toList = j.repr.toList) : i = j := by
  have hvalue := congrArg (Nat.ofDigitChars 10 · 0) h
  simpa using hvalue

end Counting

/-- A template where what is put in for the name cannot run on into the index: it has places for
one of them only, or some character that is no digit comes after so many places for names and so
many for indices that they are not in the proportion of the whole template. -/
def SetsApart (T : List Letter) : Prop :=
  .name ∉ T ∨ .index ∉ T ∨ ∃ P c Q, T = P ++ .char c :: Q ∧ c.isDigit = false ∧
    P.count .name * T.count .index ≠ P.count .index * T.count .name

/-- A name that neither begins nor ends with a digit. -/
def Delimited (name : List Char) : Prop :=
  (∃ c x, name = c :: x ∧ c.isDigit = false) ∧ ∃ x c, name = x ++ [c] ∧ c.isDigit = false

/-- What is left of a name without its digits. -/
def withoutDigits (name : List Char) : List Char := name.filter (!·.isDigit)

section Separation
variable {T P Q : List Letter} {n m d e : List Char}

/-- Whether a letter is a place or a character of a kind. -/
def survives (p : Char → Bool) : Letter → Bool
  | .char c => p c
  | _ => true

theorem filter_fill (p : Char → Bool) (T : List Letter) (name index : List Char) :
    (T.flatMap (fill name index)).filter p =
      (T.filter (survives p)).flatMap (fill (name.filter p) (index.filter p)) := by
  induction T with
  | nil => rfl
  | cons a T ih =>
    rw [List.flatMap_cons, List.filter_append, ih, List.filter_cons]
    cases a with
    | char c => cases hc : p c <;> simp [survives, fill, hc]
    | _ => simp [survives, fill]

theorem withoutDigits_eq_nil (hd : ∀ c ∈ d, c.isDigit) : withoutDigits d = [] := by
  simpa [withoutDigits, List.filter_eq_nil_iff] using hd

/-- A template with a place for the name tells apart names that differ in more than digits. -/
theorem withoutDigits_eq (h : T.flatMap (fill n d) = T.flatMap (fill m e))
    (hd : ∀ c ∈ d, c.isDigit) (he : ∀ c ∈ e, c.isDigit) (hname : .name ∈ T) :
    withoutDigits n = withoutDigits m := by
  have hleft : (T.filter (survives (!·.isDigit))).flatMap (fill (withoutDigits n) []) =
      (T.filter (survives (!·.isDigit))).flatMap (fill (withoutDigits m) []) := by
    have hfilter := congrArg (List.filter (!·.isDigit)) h
    rw [filter_fill, filter_fill] at hfilter
    change List.flatMap (fill (withoutDigits n) (withoutDigits d)) _ =
      List.flatMap (fill (withoutDigits m) (withoutDigits e)) _ at hfilter
    rwa [withoutDigits_eq_nil hd, withoutDigits_eq_nil he] at hfilter
  have hplace : .name ∈ T.filter (survives (!·.isDigit)) := List.mem_filter.2 ⟨hname, rfl⟩
  have hlength : (withoutDigits n).length = (withoutDigits m).length := by
    have htotal := congrArg List.length hleft
    rw [length_fill, length_fill _ (withoutDigits m)] at htotal
    simp only [List.length_nil, Nat.mul_zero, Nat.add_zero, Nat.add_left_cancel_iff] at htotal
    exact Nat.eq_of_mul_eq_mul_left (List.count_pos_iff.2 hplace) htotal
  exact (fill_injective hleft (fun _ => hlength) fun _ => rfl).1 hplace

/-- Indices are made of digits, so that as many other characters come before each place. -/
theorem countP_prefix_eq (h : T.flatMap (fill n d) = T.flatMap (fill m e))
    (hd : ∀ c ∈ d, c.isDigit) (he : ∀ c ∈ e, c.isDigit) (hT : T = P ++ Q) :
    (P.flatMap (fill n d)).countP (!·.isDigit) = (P.flatMap (fill m e)).countP (!·.isDigit) := by
  have hdigits {d : List Char} (hd : ∀ c ∈ d, c.isDigit) : d.countP (!·.isDigit) = 0 := by
    simpa [List.countP_eq_zero] using hd
  have hcount (L : List Letter) : (L.flatMap (fill n d)).countP (!·.isDigit) =
      (L.flatMap (fill m e)).countP (!·.isDigit) ↔
        L.count .name * n.countP (!·.isDigit) = L.count .name * m.countP (!·.isDigit) := by
    rw [countP_fill, countP_fill _ L m e, hdigits hd, hdigits he]
    omega
  have hall := (hcount T).1 (congrArg (List.countP (!·.isDigit)) h)
  refine (hcount P).2 ?_
  rcases Nat.eq_zero_or_pos (P.count .name) with hzero | hpos
  · rw [hzero, Nat.zero_mul, Nat.zero_mul]
  · have hle : P.count .name ≤ T.count .name := by
      rw [hT, List.count_append]
      exact Nat.le_add_right _ _
    rw [Nat.eq_of_mul_eq_mul_left (Nat.lt_of_lt_of_le hpos hle) hall]

theorem fill_prefix_eq (h : T.flatMap (fill n d) = T.flatMap (fill m e)) (hd : ∀ c ∈ d, c.isDigit)
    (he : ∀ c ∈ e, c.isDigit) {c : Char} (hT : T = P ++ .char c :: Q) (hc : c.isDigit = false) :
    P.flatMap (fill n d) = P.flatMap (fill m e) := by
  have hcount := countP_prefix_eq h hd he hT
  rw [hT, List.flatMap_append, List.flatMap_append] at h
  exact split_unique (by simp [hc]) (by simp [hc]) h hcount

/-- The first and the last characters of names that neither begin nor end with a digit stand where
those of the other names do. -/
theorem length_eq_of_delimited (h : T.flatMap (fill n d) = T.flatMap (fill m e))
    (hd : ∀ c ∈ d, c.isDigit) (he : ∀ c ∈ e, c.isDigit) (hT : T = P ++ .name :: Q)
    (hn : Delimited n) (hm : Delimited m) : n.length = m.length := by
  have hbefore := countP_prefix_eq h hd he hT
  have hafter := countP_prefix_eq h hd he (P := P ++ [.name]) (Q := Q) (by simpa using hT)
  obtain ⟨⟨c, x, hfirst, hc⟩, u, b, hlast, hb⟩ := hn
  obtain ⟨⟨c', x', hfirst', hc'⟩, u', b', hlast', hb'⟩ := hm
  rw [hT, List.flatMap_append, List.flatMap_append, List.flatMap_cons, List.flatMap_cons] at h
  have hfront : P.flatMap (fill n d) ++ c :: (x ++ Q.flatMap (fill n d)) =
      P.flatMap (fill m e) ++ c' :: (x' ++ Q.flatMap (fill m e)) := by
    rw [← List.cons_append, ← hfirst, ← List.cons_append, ← hfirst']
    exact h
  have hback : P.flatMap (fill n d) ++ u ++ b :: Q.flatMap (fill n d) =
      P.flatMap (fill m e) ++ u' ++ b' :: Q.flatMap (fill m e) := by
    rw [List.append_assoc, List.append_cons u, ← hlast, List.append_assoc, List.append_cons u',
      ← hlast']
    exact h
  have hstart := split_unique (p := (!·.isDigit)) (by simp [hc]) (by simp [hc']) hfront hbefore
  have hcount : (P.flatMap (fill n d) ++ u).countP (!·.isDigit) =
      (P.flatMap (fill m e) ++ u').countP (!·.isDigit) := by
    have hnames : n.countP (!·.isDigit) = m.countP (!·.isDigit) := by
      simpa [fill, List.countP_append, hbefore] using hafter
    rw [hlast, hlast', List.countP_append, List.countP_append] at hnames
    rw [List.countP_append, List.countP_append, hbefore]
    simpa [hb, hb'] using hnames
  have hend := split_unique (p := (!·.isDigit)) (by simp [hb]) (by simp [hb']) hback hcount
  rw [hstart] at hend
  rw [hlast, hlast', List.append_cancel_left hend, List.length_append, List.length_append]
  rfl

theorem lengths_eq (h : T.flatMap (fill n d) = T.flatMap (fill m e)) (hd : ∀ c ∈ d, c.isDigit)
    (he : ∀ c ∈ e, c.isDigit)
    (hapart : d.length = e.length ∨ SetsApart T ∨ Delimited n ∧ Delimited m ∨
      withoutDigits n ≠ withoutDigits m) :
    (.name ∈ T → n.length = m.length) ∧ (.index ∈ T → d.length = e.length) := by
  have hlength {L : List Letter} (hL : L.flatMap (fill n d) = L.flatMap (fill m e)) :
      L.count .name * n.length + L.count .index * d.length =
        L.count .name * m.length + L.count .index * e.length := by
    have htotal := congrArg List.length hL
    rw [length_fill, length_fill L m e] at htotal
    omega
  have htotal := hlength h
  have hindices (hnames : T.count .name * n.length = T.count .name * m.length) :
      .index ∈ T → d.length = e.length := by
    rw [hnames, Nat.add_left_cancel_iff] at htotal
    exact fun hmem => Nat.eq_of_mul_eq_mul_left (List.count_pos_iff.2 hmem) htotal
  have hnames (hindices : T.count .index * d.length = T.count .index * e.length) :
      .name ∈ T → n.length = m.length := by
    rw [hindices, Nat.add_right_cancel_iff] at htotal
    exact fun hmem => Nat.eq_of_mul_eq_mul_left (List.count_pos_iff.2 hmem) htotal
  have hnone {a : Letter} (ha : a ∉ T) (k l : Nat) : T.count a * k = T.count a * l := by
    rw [List.count_eq_zero.2 ha, Nat.zero_mul, Nat.zero_mul]
  rcases hapart with hsame | (hname | hindex | ⟨P, c, Q, hsplit, hc, hne⟩) | ⟨hn, hm⟩ | hdiffer
  · exact ⟨hnames (by rw [hsame]), fun _ => hsame⟩
  · exact ⟨fun hmem => absurd hmem hname, hindices (hnone hname _ _)⟩
  · exact ⟨hnames (hnone hindex _ _), fun hmem => absurd hmem hindex⟩
  · have hbefore := hlength (fill_prefix_eq h hd he hsplit hc)
    obtain ⟨hnm, hde⟩ := eq_of_proportion htotal hbefore hne
    exact ⟨fun _ => hnm, fun _ => hde⟩
  · have hnm (hmem : .name ∈ T) : n.length = m.length := by
      obtain ⟨P, Q, hsplit⟩ := List.append_of_mem hmem
      exact length_eq_of_delimited h hd he hsplit hn hm
    by_cases hname : .name ∈ T
    · exact ⟨hnm, hindices (by rw [hnm hname])⟩
    · exact ⟨hnm, hindices (hnone hname _ _)⟩
  · have hname : .name ∉ T := fun hname => hdiffer (withoutDigits_eq h hd he hname)
    exact ⟨fun hmem => absurd hmem hname, hindices (hnone hname _ _)⟩

theorem fill_ne (hplace : .name ∈ T ∨ .index ∈ T) (hnm : n ≠ m) (hde : d ≠ e)
    (hd : ∀ c ∈ d, c.isDigit) (he : ∀ c ∈ e, c.isDigit)
    (hapart : d.length = e.length ∨ SetsApart T ∨ Delimited n ∧ Delimited m ∨
      withoutDigits n ≠ withoutDigits m) :
    T.flatMap (fill n d) ≠ T.flatMap (fill m e) := by
  intro h
  obtain ⟨hnames, hindices⟩ := lengths_eq h hd he hapart
  obtain ⟨hname, hindex⟩ := fill_injective h hnames hindices
  rcases hplace with hmem | hmem
  · exact hnm (hname hmem)
  · exact hde (hindex hmem)

end Separation

end Letter

namespace Config
open Letter

variable (c : Config) (constants : List Term)

/-- The template with its places for the name. -/
def named : List Letter :=
  replaceFrom (ofString namePlaceholder) [.name] 0 (ofString c.nameFormat)

/-- The template with the constants put in, which may bring placeholders for the index. -/
def withArgs : List Letter :=
  replaceFrom (ofString argsPlaceholder) (ofString ("_".intercalate (constants.map Term.render))) 0
    c.named

/-- The template with its places for the name and the index. -/
def template : List Letter :=
  replaceFrom (ofString indexPlaceholder) [.index] 0 (c.withArgs constants)

/-- A name that is put in forms no placeholder, neither by itself nor with the text around it. -/
def FormsNoPlaceholder (name : String) (i : Nat) : Prop :=
  Avoids argsPlaceholder.toList name.toList i.repr.toList c.named ∧
  Avoids indexPlaceholder.toList name.toList i.repr.toList (c.withArgs constants)

theorem replaced_named :
    Replaced (ofString namePlaceholder) [.name] (ofString c.nameFormat) c.named :=
  replaced_replaceFrom (by decide) _

theorem replaced_withArgs : Replaced (ofString argsPlaceholder)
    (ofString ("_".intercalate (constants.map Term.render))) c.named (c.withArgs constants) :=
  replaced_replaceFrom (by decide) _

theorem replaced_template : Replaced (ofString indexPlaceholder) [.index] (c.withArgs constants)
    (c.template constants) :=
  replaced_replaceFrom (by decide) _

variable {c constants} {b : Bundle Term} {i j : Nat} {f g : FixFunction Term}

/-- The replacements one after another fill the places of the template at once. -/
theorem toList_specializedName (hi : b.function? i = some f)
    (h : c.FormsNoPlaceholder constants f.name i) :
    (c.specializedName b i constants).toList =
      (c.template constants).flatMap (fill f.name.toList i.repr.toList) := by
  have hname : replaceFrom namePlaceholder.toList f.name.toList 0 c.nameFormat.toList =
      c.named.flatMap (fill f.name.toList i.repr.toList) := by
    have hfill := replaceFrom_fill [.name] (by decide) (avoids_of_no_place namePlaceholder.toList
      f.name.toList i.repr.toList fun a => not_isPlace_of_mem_ofString (s := c.nameFormat))
    simp only [flatMap_fill_ofString, List.flatMap_singleton, fill] at hfill
    exact hfill
  have hargs := replaceFrom_fill (ofString ("_".intercalate (constants.map Term.render)))
    (by decide) h.1
  have hindex := replaceFrom_fill [.index] (by decide) h.2
  simp only [flatMap_fill_ofString] at hargs
  simp only [List.flatMap_singleton, fill] at hindex
  simp only [specializedName, hi, Option.map_some, Option.getD_some, replaceAll,
    String.toList_ofList, hname, hargs]
  exact hindex

/-- A template that is accepted has a place for the name or for the index. -/
theorem place_mem_template (hvalid : c.validate = .ok ()) :
    .name ∈ c.template constants ∨ .index ∈ c.template constants := by
  have hargs := replaced_withArgs c constants
  have hindex := replaced_template c constants
  rw [validate] at hvalid
  split at hvalid
  · cases hvalid
  split at hvalid
  · next hmentions =>
    rw [Bool.or_eq_true, contains, contains, occursIn_iff, occursIn_iff] at hmentions
    rcases hmentions with hmention | hmention
    · have hplace : Letter.name ∈ c.named :=
        c.replaced_named.mem_of_infix (by decide) (hmention.map _) (List.mem_singleton_self _)
      exact .inl (hindex.mem_of_mem (by decide) (hargs.mem_of_mem (by decide) hplace))
    · have hmention : ofString indexPlaceholder <:+: ofString c.nameFormat := hmention.map _
      have hafterName := c.replaced_named.infix_of_infix (by decide) (by decide) (by decide)
        (by decide) hmention
      have hafterArgs := hargs.infix_of_infix (by decide) (by decide) (by decide) (by decide)
        hafterName
      exact .inr (hindex.mem_of_infix (by decide) hafterArgs (List.mem_singleton_self _))
  · cases hvalid

theorem ne_of_filled_ne (hi : b.function? i = some f) (hj : b.function? j = some g)
    (hf : c.FormsNoPlaceholder constants f.name i) (hg : c.FormsNoPlaceholder constants g.name j)
    (h : (c.template constants).flatMap (fill f.name.toList i.repr.toList) ≠
      (c.template constants).flatMap (fill g.name.toList j.repr.toList)) :
    c.specializedName b i constants ≠ c.specializedName b j constants := by
  intro heq
  rw [← toList_specializedName hi hf, ← toList_specializedName hj hg, heq] at h
  exact h rfl

theorem formsNoPlaceholder_of_outsideBraces {name : String} (hname : '\x7b' ∉ name.toList)
    (hnamed : OutsideBraces c.named) (hargs : OutsideBraces (c.withArgs constants)) (i : Nat) :
    c.FormsNoPlaceholder constants name i := by
  have hindex : '\x7b' ∉ i.repr.toList := fun h => absurd (isDigit_repr i _ h) (by decide)
  exact ⟨avoids_of_outsideBraces (p := "args".toList) hnamed hname hindex (by decide),
    avoids_of_outsideBraces (p := "index".toList) hargs hname hindex (by decide)⟩

/-- Two functions of a bundle get two names, as long as nothing but the places of an accepted
template is replaced and no name can run on into an index. -/
theorem filled_ne (hvalid : c.validate = .ok ()) (hnames : (b.functions.map (·.name)).Nodup)
    (hi : b.function? i = some f) (hj : b.function? j = some g) (hij : i ≠ j)
    (hapart : i.repr.length = j.repr.length ∨ SetsApart (c.template constants) ∨
      Delimited f.name.toList ∧ Delimited g.name.toList ∨
        withoutDigits f.name.toList ≠ withoutDigits g.name.toList) :
    (c.template constants).flatMap (fill f.name.toList i.repr.toList) ≠
      (c.template constants).flatMap (fill g.name.toList j.repr.toList) := by
  rw [← String.length_toList, ← String.length_toList] at hapart
  refine fill_ne (place_mem_template hvalid) (fun hname => hij ?_)
    (fun hindex => hij (toList_repr_injective hindex)) (isDigit_repr i) (isDigit_repr j) hapart
  have hlt : i < (b.functions.map (·.name)).length := by
    simpa using (List.getElem?_eq_some_iff.1 hi).1
  refine (List.getElem?_inj hlt hnames).1 ?_
  rw [List.getElem?_map, List.getElem?_map]
  change (b.function? i).map _ = (b.function? j).map _
  rw [hi, hj, Option.map_some, Option.map_some, String.toList_injective hname]

/-- An accepted template tells two functions of a bundle apart whose names form no placeholder, if
their indices have as many digits, the template sets names and indices apart, the two names neither
begin nor end with a digit, or they differ in more than digits. -/
theorem specializedName_ne (hvalid : c.validate = .ok ())
    (hnames : (b.functions.map (·.name)).Nodup) (hi : b.function? i = some f)
    (hj : b.function? j = some g) (hij : i ≠ j) (hf : c.FormsNoPlaceholder constants f.name i)
    (hg : c.FormsNoPlaceholder constants g.name j)
    (hapart : i.repr.length = j.repr.length ∨ SetsApart (c.template constants) ∨
      Delimited f.name.toList ∧ Delimited g.name.toList ∨
        withoutDigits f.name.toList ≠ withoutDigits g.name.toList) :
    c.specializedName b i constants ≠ c.specializedName b j constants :=
  ne_of_filled_ne hi hj hf hg (filled_ne hvalid hnames hi hj hij hapart)

/-- Functions `f0` to `f10` and a function `f`. -/
def numbered : Bundle Term :=
  ⟨none, ["f0", "f1", "f2", "f3", "f4", "f5", "f6", "f7", "f8", "f9", "f10", "f"].map fun x =>
    ⟨x, [], .univ .set, .univ .set⟩⟩

/-- The name and the index with `_` between them. -/
def nameThenIndex : Config := ⟨1, "\x7bname\x7d_\x7bindex\x7d"⟩

theorem specializedName_ne_numbered :
    nameThenIndex.validate = .ok () ∧ (numbered.functions.map (·.name)).Nodup ∧
    nameThenIndex.FormsNoPlaceholder [.global "O"] "f1" 1 ∧
    nameThenIndex.FormsNoPlaceholder [.global "O"] "f" 11 ∧
    SetsApart (nameThenIndex.template [.global "O"]) ∧
    nameThenIndex.specializedName numbered 1 [.global "O"] ≠
      nameThenIndex.specializedName numbered 11 [.global "O"] := by
  have hvalid : nameThenIndex.validate = .ok () := by decide
  have hnames : (numbered.functions.map (·.name)).Nodup := by decide
  have hone : nameThenIndex.FormsNoPlaceholder [.global "O"] "f1" 1 :=
    formsNoPlaceholder_of_outsideBraces (by decide) (by decide) (by decide) 1
  have heleven : nameThenIndex.FormsNoPlaceholder [.global "O"] "f" 11 :=
    formsNoPlaceholder_of_outsideBraces (by decide) (by decide) (by decide) 11
  have hapart : SetsApart (nameThenIndex.template [.global "O"]) :=
    .inr (.inr ⟨[.name], '_', [.index], by decide, by decide, by decide⟩)
  exact ⟨hvalid, hnames, hone, heleven, hapart,
    specializedName_ne hvalid hnames rfl rfl (by decide) hone heleven (.inr (.inl hapart))⟩

/-- With nothing between them, function 1 is `f1` and `1`, and function 11 is `f` and `11`. -/
theorem specializedName_adjacent :
    ¬ ∀ (c : Config) (b : Bundle Term) (constants : List Term) (i j : Nat),
      c.validate = .ok () → (b.functions.map (·.name)).Nodup → i < b.size → j < b.size → i ≠ j →
        c.specializedName b i constants ≠ c.specializedName b j constants := by
  intro h
  let adjacent : Config := ⟨1, "\x7bname\x7d\x7bindex\x7d"⟩
  have hone : adjacent.specializedName numbered 1 [] = "f11" := by decide
  have heleven : adjacent.specializedName numbered 11 [] = "f11" := by decide
  exact h adjacent numbered [] 1 11 (by decide) (by decide) (by decide) (by decide) (by decide)
    (hone.trans heleven.symm)

-- A name that is a placeholder is replaced in its turn.
example : Config.specializedName ⟨1, "\x7bname\x7d"⟩
    ⟨none, [⟨"\x7bindex\x7d", [], .univ .set, .univ .set⟩]⟩ 0 [] = "0" := by
  decide

/-- Without a place for the name there is nothing that a name could be part of. -/
theorem formsNoPlaceholder_of_no_name (h : .name ∉ c.named) (name : String) (i : Nat) :
    c.FormsNoPlaceholder constants name i := by
  have hnamed : ∀ a ∈ c.named, ¬ a.IsPlace := by
    intro a ha
    rcases c.replaced_named.mem_or_mem ha with hmem | hmem
    · exact not_isPlace_of_mem_ofString hmem
    · exact absurd (List.mem_singleton.1 hmem ▸ ha) h
  have hargs : ∀ a ∈ c.withArgs constants, ¬ a.IsPlace := by
    intro a ha
    exact ((replaced_withArgs c constants).mem_or_mem ha).elim (hnamed a)
      not_isPlace_of_mem_ofString
  exact ⟨avoids_of_no_place _ _ _ hnamed, avoids_of_no_place _ _ _ hargs⟩

/-- A template that only has places for the index always tells functions apart. -/
theorem specializedName_ne_of_no_name (hvalid : c.validate = .ok ())
    (hnames : (b.functions.map (·.name)).Nodup) (hi : b.function? i = some f)
    (hj : b.function? j = some g) (hij : i ≠ j) (h : .name ∉ c.named) :
    c.specializedName b i constants ≠ c.specializedName b j constants := by
  have hname : .name ∉ c.template constants := by
    intro hmem
    rcases (replaced_template c constants).mem_or_mem hmem with hmem | hmem
    · rcases (replaced_withArgs c constants).mem_or_mem hmem with hmem | hmem
      · exact h hmem
      · exact not_isPlace_of_mem_ofString hmem trivial
    · exact absurd hmem (by decide)
  refine ne_of_filled_ne hi hj (formsNoPlaceholder_of_no_name h _ i)
    (formsNoPlaceholder_of_no_name h _ j) ?_
  exact filled_ne hvalid hnames hi hj hij (.inr (.inl (.inl hname)))

theorem default_named :
    Config.default.named = .name :: .char '_' :: ofString argsPlaceholder := by
  decide

theorem default_withArgs : Config.default.withArgs constants =
    .name :: .char '_' :: ofString ("_".intercalate (constants.map Term.render)) := by
  rw [withArgs, default_named]
  generalize "_".intercalate (constants.map Term.render) = args
  change .name :: .char '_' :: (ofString args ++ []) = _
  rw [List.append_nil]

/-- The template that stands where none is given sets the name apart from what comes with the
constants. -/
theorem setsApart_default : SetsApart (Config.default.template constants) := by
  rw [template, default_withArgs]
  generalize "_".intercalate (constants.map Term.render) = args
  have hreplaced : Replaced (ofString indexPlaceholder) [.index] (ofString args)
      (replaceFrom (ofString indexPlaceholder) [.index] 0 (ofString args)) :=
    replaced_replaceFrom (by decide) _
  change SetsApart (.name :: .char '_' ::
    replaceFrom (ofString indexPlaceholder) [.index] 0 (ofString args))
  generalize replaceFrom (ofString indexPlaceholder) [.index] 0 (ofString args) = rest
    at hreplaced ⊢
  have hname : .name ∉ rest := by
    intro hmem
    rcases hreplaced.mem_or_mem hmem with hmem | hmem
    · exact not_isPlace_of_mem_ofString hmem trivial
    · exact absurd hmem (by decide)
  by_cases hindex : .index ∈ rest
  · refine .inr (.inr ⟨[.name], '_', rest, rfl, by decide, ?_⟩)
    have hpos := List.count_pos_iff.2 hindex
    simp
    omega
  · exact .inr (.inl (by simpa using hindex))

/-- Where no template is given, functions of different names that are free of braces get different
names, whatever the constants. -/
theorem default_specializedName_ne (hnames : (b.functions.map (·.name)).Nodup)
    (hi : b.function? i = some f) (hj : b.function? j = some g) (hij : i ≠ j)
    (hf : '\x7b' ∉ f.name.toList) (hg : '\x7b' ∉ g.name.toList) :
    Config.default.specializedName b i constants ≠
      Config.default.specializedName b j constants := by
  have hforms {name : String} (hname : '\x7b' ∉ name.toList) (i : Nat) :
      Config.default.FormsNoPlaceholder constants name i := by
    refine formsNoPlaceholder_of_outsideBraces hname ?_ ?_ i
    · rw [default_named]
      exact outsideBraces_cons (by decide)
    · rw [default_withArgs]
      refine outsideBraces_cons (List.forall_mem_cons.2 ⟨id, fun a ha => ?_⟩)
      exact not_isPlace_of_mem_ofString ha
  refine ne_of_filled_ne hi hj (hforms hf i) (hforms hg j) ?_
  exact filled_ne (by decide) hnames hi hj hij (.inr (.inl setsApart_default))

end Config
end InductiveTerms
