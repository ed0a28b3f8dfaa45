/-
ContainerMounts.Proofs.CanonicalDestinations — the one form of a
destination, read off its text.

A destination is cut at its slashes into parts. `..` takes back the name
before it, so a destination is in order when no prefix of its parts takes
back more than it names (`Balanced`), and a name is left when the parts
behind it, taken for themselves, are in order (`kept`): nothing behind it
reaches back as far as the name.

Main statement: `normalize_canonical`. A destination that is not balanced is
refused, any other becomes `/` and the parts that are kept, with one slash
between neighbours. That text is its own form, and it may replace the
destination at the front of any longer one.

`Destination.collapse?` works with a stack from the front. What connects it
with counts is `debt`, the number of names that the parts take from a stack
that was there before them (`collapse?_moves`).
-/
import ContainerMounts.Proofs.PlanOrder
import ContainerMounts.Proofs.Utf8RoundTrip
import Mathlib.Data.List.Infix

namespace ContainerMounts

/-! ## Text and bytes, cut at slashes -/

namespace Utf8

theorem encode_injective {cs ds : List Char} (h : encode cs = encode ds) : cs = ds := by
  have hmap : cs.map some = ds.map some := by rw [← decode_encode, h, decode_encode]
  exact List.map_injective_iff.2 (fun _ _ => Option.some.inj) hmap

theorem slash_notMem_encode {cs : List Char} (h : '/' ∉ cs) : slash ∉ encode cs := by
  intro hmem
  obtain ⟨c, hc, hbyte⟩ := List.mem_flatMap.1 hmem
  by_cases hascii : c.toNat < 128
  · rw [encodeChar_of_ascii hascii, List.mem_singleton, eq_comm, ofNat_eq_iff (by omega)] at hbyte
    have hslash : c = '/' := by
      rw [← Char.ofNat_toNat c, hbyte]
      rfl
    exact h (hslash ▸ hc)
  · exact absurd (high_of_mem_encodeChar (Nat.le_of_not_lt hascii) slash hbyte) (by decide)

theorem encodeChar_slash : String.utf8EncodeChar '/' = [slash] := by decide

theorem encode_joinPieces (ps : List (List Char)) :
    encode (joinPieces '/' ps) = joinPieces slash (ps.map encode) := by
  induction ps with
  | nil => rfl
  | cons p ps ih =>
      cases ps with
      | nil => rfl
      | cons q qs =>
          rw [joinPieces, encode_append, encode_cons, ih, encodeChar_slash]
          rfl

/-- Cutting a text at its slashes and cutting its bytes there are one. -/
theorem pieces_encode (cs : List Char) :
    pieces slash (encode cs) = (pieces '/' cs).map encode := by
  have hapart : ∀ p ∈ (pieces '/' cs).map encode, slash ∉ p :=
    List.forall_mem_map.2 fun p hp => slash_notMem_encode (sep_notMem_of_mem_pieces p hp)
  conv_lhs => rw [← joinPieces_pieces '/' cs, encode_joinPieces]
  exact pieces_joinPieces (by simp [pieces_ne_nil]) hapart

end Utf8

namespace Path

/-- The steps of a path are those of its pieces, wherever it starts. -/
theorem steps_eq (p : Path) :
    p.steps = p.parts.filterMap fun piece => (Component.ofPiece? piece).bind stepOf? := by
  rw [steps, ← List.filterMap_filterMap, components]
  split
  · rfl
  · split <;> rfl

/-- A path of plain names, as it is written. -/
theorem bytes_ofNames {names : List Name} (h : ∀ n ∈ names, PlainName n) :
    (ofNames names).bytes = slash :: joinPieces slash names := by
  induction names using List.reverseRecOn with
  | nil => rfl
  | append_singleton names name ih =>
      have hnames : ∀ n ∈ names, PlainName n := fun n hn => h n (by simp [hn])
      have hname : PlainName name := h name (by simp)
      have hbytes := ih hnames
      rcases List.eq_nil_or_concat names with rfl | ⟨init, last, rfl⟩
      · simp [ofNames, joinNames_singleton, join, PlainName.not_absolute hname.no_slash,
          root, joinPieces]
      · rw [List.concat_eq_append] at hnames hbytes ⊢
        have hlast : PlainName last := hnames last (by simp)
        have hopen : (ofNames (init ++ [last])).bytes.getLast? ≠ some slash := by
          rw [ofNames, joinNames_concat, join_getLast? _ hlast]
          exact fun hs => hlast.no_slash (List.mem_of_getLast? hs)
        rw [hbytes] at hopen
        have hjoin : ((ofNames (init ++ [last])).join ⟨name⟩).bytes
            = (ofNames (init ++ [last])).bytes ++ slash :: name := by
          simp [join, PlainName.not_absolute hname.no_slash, hopen, hbytes]
        rw [ofNames, joinNames_concat, ← ofNames, hjoin, hbytes,
          joinPieces_append (by simp) (List.cons_ne_nil name [])]
        rfl

end Path

namespace Destination

/-! ## Parts of a text -/

/-- The parts of the text between its slashes, empty ones included. -/
def textParts (text : String) : List (List Char) := pieces '/' text.toList

/-- The part is a name: neither empty nor `.` nor `..`. -/
def Named (part : List Char) : Prop := part ≠ [] ∧ part ≠ ['.'] ∧ part ≠ ['.', '.']

instance (part : List Char) : Decidable (Named part) :=
  inferInstanceAs (Decidable (part ≠ [] ∧ part ≠ ['.'] ∧ part ≠ ['.', '.']))

/-- How many of the parts are names. -/
def nameCount (parts : List (List Char)) : Nat := parts.countP fun part => decide (Named part)

/-- How many of the parts are `..`. -/
def upCount (parts : List (List Char)) : Nat := parts.count ['.', '.']

/-- No prefix of the parts takes back more names than it has. -/
def Balanced (parts : List (List Char)) : Prop :=
  ∀ pre, pre <+: parts → upCount pre ≤ nameCount pre

instance (parts : List (List Char)) : Decidable (Balanced parts) :=
  decidable_of_iff (∀ pre ∈ parts.inits, upCount pre ≤ nameCount pre)
    (by simp only [List.mem_inits, Balanced])

/-- The names that nothing behind them takes back. -/
def kept : List (List Char) → List (List Char)
  | [] => []
  | part :: rest => if Named part ∧ Balanced rest then part :: kept rest else kept rest

example : kept (textParts "/a/./b//../c") = [['a'], ['c']] := by decide

/-- How many names the parts take back from a stack that they find. -/
def debt : List (List Char) → Nat
  | [] => 0
  | part :: rest =>
      if part = ['.', '.'] then debt rest + 1
      else if Named part then debt rest - 1
      else debt rest

section Counts

variable {part : List Char} {parts rest : List (List Char)}

theorem nameCount_cons : nameCount (part :: rest) = nameCount rest + if Named part then 1 else 0 := by
  simp [nameCount, List.countP_cons]

theorem upCount_cons :
    upCount (part :: rest) = upCount rest + if part = ['.', '.'] then 1 else 0 := by
  simp [upCount, List.count_cons]

theorem not_named_up : ¬ Named ['.', '.'] := by decide

/-- The debt is the greatest number by which a prefix takes back more than it
names. -/
theorem debt_le_iff {k : Nat} :
    debt parts ≤ k ↔ ∀ pre, pre <+: parts → upCount pre ≤ nameCount pre + k := by
  induction parts generalizing k with
  | nil => simp [debt, upCount, nameCount]
  | cons part rest ih =>
      have hpre : (∀ pre, pre <+: part :: rest → upCount pre ≤ nameCount pre + k)
          ↔ ∀ pre, pre <+: rest → upCount (part :: pre) ≤ nameCount (part :: pre) + k := by
        simp only [List.prefix_cons_iff]
        constructor
        · exact fun h pre hpre => h (part :: pre) (.inr ⟨pre, rfl, hpre⟩)
        · rintro h pre (rfl | ⟨t, rfl, ht⟩)
          · simp [upCount]
          · exact h t ht
      simp only [hpre, debt, nameCount_cons, upCount_cons]
      by_cases hup : part = ['.', '.']
      · subst hup
        simp only [if_true, not_named_up, if_false]
        cases k with
        | zero =>
            refine iff_of_false (by omega) fun h => ?_
            have hnil := h [] List.nil_prefix
            simp [upCount, nameCount] at hnil
        | succ k =>
            rw [Nat.succ_le_succ_iff, ih]
            exact forall₂_congr fun pre _ => by omega
      · by_cases hname : Named part
        · simp only [hup, hname, if_true, if_false, Nat.sub_le_iff_le_add, ih]
          exact forall₂_congr fun pre _ => by omega
        · simp only [hup, hname, if_false, ih]
          exact forall₂_congr fun pre _ => by omega

theorem balanced_iff : Balanced parts ↔ debt parts = 0 := by
  rw [← Nat.le_zero, debt_le_iff]
  rfl

/-- What is named is taken back, or is left; what is taken back was named, or
was there before. -/
theorem nameCount_add_debt :
    nameCount parts + debt parts = upCount parts + (kept parts).length := by
  induction parts with
  | nil => rfl
  | cons part rest ih =>
      simp only [nameCount_cons, upCount_cons, debt, kept, balanced_iff]
      by_cases hup : part = ['.', '.']
      · subst hup
        simp only [if_true, not_named_up, if_false, false_and]
        omega
      · by_cases hname : Named part
        · simp only [hup, hname, if_true, if_false, true_and]
          split
          · rw [List.length_cons]
            omega
          · omega
        · simp only [hup, hname, if_false, false_and]
          omega

theorem mem_of_mem_kept {parts : List (List Char)} :
    ∀ part ∈ kept parts, part ∈ parts ∧ Named part := by
  induction parts with
  | nil => simp [kept]
  | cons first rest ih =>
      have hrest : ∀ part ∈ kept rest, part ∈ first :: rest ∧ Named part :=
        fun part h => ⟨List.mem_cons_of_mem first (ih part h).1, (ih part h).2⟩
      intro part hpart
      rw [kept] at hpart
      split at hpart
      · rename_i hfirst
        rcases List.mem_cons.1 hpart with rfl | hpart
        · exact ⟨List.mem_cons_self, hfirst.1⟩
        · exact hrest part hpart
      · exact hrest part hpart

/-- Names alone are balanced, and all of them are left. -/
theorem kept_of_named (h : ∀ part ∈ parts, Named part) : debt parts = 0 ∧ kept parts = parts := by
  induction parts with
  | nil => exact ⟨rfl, rfl⟩
  | cons part rest ih =>
      have hpart : Named part := h part List.mem_cons_self
      obtain ⟨hdebt, hkept⟩ := ih fun p hp => h p (List.mem_cons_of_mem part hp)
      simp [debt, kept, hpart, hpart.2.2, balanced_iff, hdebt, hkept]

end Counts

/-! ## The stack -/

/-- The step that a part asks for. -/
def stepOfPart? (part : List Char) : Option Step :=
  if part = ['.', '.'] then some .up
  else if Named part then some (.down (Utf8.encode part))
  else none

/-- The steps that the parts ask for. -/
def stepsOf (parts : List (List Char)) : List Step := parts.filterMap stepOfPart?

theorem ofPiece?_encode (part : List Char) :
    (Component.ofPiece? (Utf8.encode part)).bind Path.stepOf? = stepOfPart? part := by
  have hnil : Utf8.encode part = [] ↔ part = [] :=
    ⟨fun h => Utf8.encode_injective h, fun h => h ▸ rfl⟩
  have hdot : Utf8.encode part = dotName ↔ part = ['.'] :=
    ⟨fun h => Utf8.encode_injective h, fun h => h ▸ rfl⟩
  have hdotDot : Utf8.encode part = dotDotName ↔ part = ['.', '.'] :=
    ⟨fun h => Utf8.encode_injective h, fun h => h ▸ rfl⟩
  simp only [Component.ofPiece?, hnil, hdot, hdotDot]
  by_cases hup : part = ['.', '.']
  · subst hup
    rfl
  · by_cases hname : Named part
    · simp [stepOfPart?, hup, hname, hname.1, hname.2.1, Path.stepOf?]
    · have hidle : part = [] ∨ part = ['.'] := by
        simpa [Named, hup, ← or_iff_not_imp_left] using hname
      simp [stepOfPart?, hup, hname, hidle]

theorem steps_ofString (text : String) : (Path.ofString text).steps = stepsOf (textParts text) := by
  rw [Path.steps_eq, Path.parts, Path.ofString, Utf8.pieces_encode, List.filterMap_map]
  exact congrArg (List.filterMap · _) (funext ofPiece?_encode)

theorem collapse?_up {stack : List Name} {steps : List Step} :
    collapse? stack (.up :: steps)
      = if stack = [] then none else collapse? stack.dropLast steps := by
  cases stack <;> rfl

theorem collapse?_down {stack : List Name} {name : Name} {steps : List Step} :
    collapse? stack (.down name :: steps) = collapse? (stack ++ [name]) steps := by
  cases stack <;> rfl

/-- What the parts make of a stack: they fail if they take back more than it
holds, and otherwise they leave the front of it and, behind that, the names
that they keep. -/
theorem collapse?_stepsOf (stack : List Name) (parts : List (List Char)) :
    collapse? stack (stepsOf parts)
      = if debt parts ≤ stack.length then
          some (stack.take (stack.length - debt parts) ++ (kept parts).map Utf8.encode)
        else none := by
  induction parts generalizing stack with
  | nil => cases stack <;> simp [stepsOf, collapse?, debt, kept]
  | cons part rest ih =>
      by_cases hup : part = ['.', '.']
      · have hsteps : stepsOf (part :: rest) = .up :: stepsOf rest := by
          simp [stepsOf, stepOfPart?, hup]
        subst hup
        rw [hsteps, collapse?_up]
        simp only [debt, kept, if_true, not_named_up, false_and, if_false]
        rcases List.eq_nil_or_concat stack with rfl | ⟨init, last, rfl⟩
        · simp
        · rw [List.concat_eq_append, if_neg (by simp), List.dropLast_concat, ih,
            List.length_append, List.length_singleton]
          simp only [Nat.add_le_add_iff_right, Nat.add_sub_add_right]
          rw [List.take_append_of_le_length (Nat.sub_le _ _)]
      · by_cases hname : Named part
        · have hsteps : stepsOf (part :: rest) = .down (Utf8.encode part) :: stepsOf rest := by
            simp [stepsOf, stepOfPart?, hup, hname]
          rw [hsteps, collapse?_down, ih]
          simp only [debt, kept, hup, hname, if_true, if_false, true_and, balanced_iff,
            List.length_append, List.length_singleton]
          -- The name stays if the rest takes nothing, and is the first to go if it does.
          cases debt rest with
          | zero =>
              have hall : (stack ++ [Utf8.encode part]).take (stack.length + 1)
                  = stack ++ [Utf8.encode part] := List.take_of_length_le (by simp)
              simp [hall]
          | succ d =>
              simp only [Nat.add_le_add_iff_right, Nat.add_sub_add_right, Nat.add_sub_cancel,
                Nat.succ_ne_zero, if_false]
              rw [List.take_append_of_le_length (Nat.sub_le _ _)]
        · have hsteps : stepsOf (part :: rest) = stepsOf rest := by
            simp [stepsOf, stepOfPart?, hup, hname]
          rw [hsteps, ih]
          simp only [debt, kept, hup, hname, if_false, false_and]

/-- Steps are taken one after the other. -/
theorem collapse?_append (stack : List Name) (steps more : List Step) :
    collapse? stack (steps ++ more)
      = (collapse? stack steps).bind fun names => collapse? names more := by
  fun_induction collapse? stack steps with
  | case1 stack => rfl
  | case2 rest => rfl
  | case3 name stack rest ih => exact ih
  | case4 stack name rest ih => rw [List.cons_append, collapse?_down, ih]

/-! ## The form of a destination -/

/-- Both texts are brought to one path, or both are refused, each quoted in
its own error. -/
def Alike (x y : String) : Prop :=
  match normalize x, normalize y with
  | .ok p, .ok q => p = q
  | .error e, .error e' => ∃ why, e = .pathEscape x why ∧ e' = .pathEscape y why
  | _, _ => False

/-- The destination `d` has the form `t`, which is the path `p`. -/
structure HasForm (d t : String) (p : Path) : Prop where
  path : p = Path.ofString t
  /-- The form is `/` and the names that nothing takes back. -/
  text : t.toList = '/' :: joinPieces '/' (kept (textParts d))
  names : ∀ part ∈ kept (textParts d), Named part ∧ '/' ∉ part
  depth : p.depth + upCount (textParts d) = nameCount (textParts d)
  /-- The form is its own form. -/
  again : normalize t = .ok p
  /-- The form may replace the destination in front of anything. -/
  front : ∀ b, Alike (d ++ "/" ++ b) (t ++ "/" ++ b)

section Form

variable {d t : String}

theorem textParts_append (a b : String) :
    textParts (a ++ "/" ++ b) = textParts a ++ textParts b := by
  simp [textParts, pieces_append_sep]

theorem named_of_mem_kept {part : List Char} (h : part ∈ kept (textParts d)) :
    Named part ∧ '/' ∉ part :=
  have hpart := mem_of_mem_kept part h
  ⟨hpart.2, sep_notMem_of_mem_pieces part hpart.1⟩

theorem textParts_form (h : t.toList = '/' :: joinPieces '/' (kept (textParts d))) :
    textParts t = [] :: (if kept (textParts d) = [] then [[]] else kept (textParts d)) := by
  have hcut : textParts t = [] :: pieces '/' (joinPieces '/' (kept (textParts d))) := by
    rw [textParts, h, pieces, if_pos rfl]
  rw [hcut]
  split
  · rename_i hnone
    rw [hnone]
    rfl
  · rename_i hsome
    rw [pieces_joinPieces hsome fun part hpart => (named_of_mem_kept hpart).2]

theorem collapse?_balanced (h : Balanced (textParts d)) :
    collapse? [] (Path.ofString d).steps = some ((kept (textParts d)).map Utf8.encode) := by
  rw [steps_ofString, collapse?_stepsOf, balanced_iff.1 h]
  simp

/-- The form keeps its names. -/
theorem collapse?_form (h : t.toList = '/' :: joinPieces '/' (kept (textParts d))) :
    collapse? [] (Path.ofString t).steps = some ((kept (textParts d)).map Utf8.encode) := by
  have hsteps : stepsOf (textParts t) = stepsOf (kept (textParts d)) := by
    rw [textParts_form h]
    split
    · rename_i hnone
      rw [hnone]
      rfl
    · rfl
  obtain ⟨hdebt, hkept⟩ := kept_of_named fun part hpart => (named_of_mem_kept (d := d) hpart).1
  rw [steps_ofString, hsteps, collapse?_stepsOf, hdebt, hkept]
  simp

theorem collapse?_front (b : String) :
    collapse? [] (Path.ofString (d ++ "/" ++ b)).steps
      = (collapse? [] (Path.ofString d).steps).bind fun names =>
          collapse? names (Path.ofString b).steps := by
  simp only [steps_ofString, textParts_append, stepsOf, List.filterMap_append, collapse?_append]

theorem alike_of_collapse? (h : collapse? [] (Path.ofString d).steps
    = collapse? [] (Path.ofString t).steps) : Alike d t := by
  rw [Alike, normalize, normalize, h]
  cases collapse? [] (Path.ofString t).steps with
  | some names => rfl
  | none => exact ⟨_, rfl, rfl⟩

theorem hasForm (h : Balanced (textParts d)) :
    HasForm d (String.ofList ('/' :: joinPieces '/' (kept (textParts d))))
      (Path.ofNames ((kept (textParts d)).map Utf8.encode)) := by
  have hplain : ∀ name ∈ (kept (textParts d)).map Utf8.encode, PlainName name :=
    collapse?_plain (by simp) (fun _ hn => Step.plain_of_mem_steps hn) (collapse?_balanced h)
  have htext : (String.ofList ('/' :: joinPieces '/' (kept (textParts d)))).toList
      = '/' :: joinPieces '/' (kept (textParts d)) := String.toList_ofList
  constructor
  case path =>
    have hbytes := Path.bytes_ofNames hplain
    rw [← Utf8.encode_joinPieces] at hbytes
    rw [Path.ofString, htext, Utf8.encode_cons, Utf8.encodeChar_slash]
    exact congrArg Path.mk hbytes
  case text => exact htext
  case names => exact fun part hpart => named_of_mem_kept hpart
  case depth =>
    have hcount : nameCount (textParts d) + debt (textParts d)
        = upCount (textParts d) + (kept (textParts d)).length := nameCount_add_debt
    rw [balanced_iff.1 h] at hcount
    rw [Path.depth_ofNames hplain, List.length_map]
    omega
  case again => rw [normalize, collapse?_form htext]
  case front =>
    refine fun b => alike_of_collapse? ?_
    rw [collapse?_front, collapse?_front, collapse?_form htext, collapse?_balanced h]

end Form

/-- **Normalization is exact and canonical.** A destination is refused if
some prefix of its parts takes back more than it names, and otherwise
becomes the one form of it. -/
theorem normalize_canonical (d : String) :
    match normalize d with
    | .error e =>
        e = .pathEscape d "`..` climbs above the container root"
          ∧ ∃ pre, pre <+: textParts d ∧ nameCount pre < upCount pre
    | .ok p => Balanced (textParts d) ∧ ∃ t, HasForm d t p := by
  by_cases h : Balanced (textParts d)
  · rw [normalize, collapse?_balanced h]
    exact ⟨h, _, hasForm h⟩
  · have hdebt : ¬ debt (textParts d) ≤ ([] : List Name).length :=
      fun hle => h (balanced_iff.2 (Nat.le_zero.1 hle))
    rw [normalize, steps_ofString, collapse?_stepsOf, if_neg hdebt]
    simp only [Balanced, not_forall, Nat.not_le] at h
    obtain ⟨pre, hpre, hlt⟩ := h
    exact ⟨rfl, pre, hpre, hlt⟩

end Destination

end ContainerMounts
