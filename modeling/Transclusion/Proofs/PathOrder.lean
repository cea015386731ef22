import Transclusion.Path

namespace Transclusion

instance : Std.LawfulEqOrd Component where
  compare_self := by
    intro c
    have rank : compare c.rank c.rank = .eq := Std.ReflCmp.compare_self
    have spelling : compare c.text c.text = .eq := Std.ReflCmp.compare_self
    exact Ordering.then_eq_eq.mpr ⟨rank, spelling⟩
  eq_of_compare := by
    intro a b same
    obtain ⟨kinds, spellings⟩ := Ordering.then_eq_eq.mp same
    have rank : a.rank = b.rank := Std.LawfulEqOrd.eq_of_compare kinds
    have spelling : a.text = b.text := Std.LawfulEqOrd.eq_of_compare spellings
    match a, b with
    | .name _, .name _ => exact congrArg Component.name spelling
    | .root, .root => rfl
    | .current, .current => rfl
    | .parent, .parent => rfl

instance : Std.LawfulEqOrd Path where
  compare_self := by
    intro p
    have steps : compare p.components p.components = .eq := Std.ReflCmp.compare_self
    exact steps
  eq_of_compare := by
    intro p q same
    have steps : p.components = q.components := Std.LawfulEqOrd.eq_of_compare same
    exact Path.ext steps

instance : Std.TransOrd Component :=
  inferInstanceAs (Std.TransCmp (compareLex (compareOn Component.rank) (compareOn Component.text)))

instance : Std.TransOrd Path := inferInstanceAs (Std.TransCmp (compareOn Path.components))

end Transclusion
