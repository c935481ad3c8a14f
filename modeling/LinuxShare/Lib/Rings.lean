-- SUMMARY: Families of disjoint rings in one link memory, and what happens to them when one of them changes.
import LinuxShare.Lib.Ring

/-!
# Families of rings

A family gives some addresses, the heads, the sequences they stand for. A memory
represents it if each head is the head of a ring with that sequence and no address
is in two of the rings. An operation on one ring keeps the others because it only
writes to members of its own ring and to the address that it links in.
-/

namespace Ring

abbrev Family (A : Type) := A → Option (List A)

/-- The memory holds the lists of the family, each in addresses of its own. -/
structure Represents {A : Type} (m : LinkMem A) (L : Family A) : Prop where
  ring : ∀ h xs, L h = some xs → IsRing m h xs
  disjoint : ∀ h g xs ys, h ≠ g → L h = some xs → L g = some ys →
    List.Disjoint (h :: xs) (g :: ys)

/-- The address is in no list, or is an empty list of its own. -/
structure Loose {A : Type} (L : Family A) (x : A) : Prop where
  empty : ∀ xs, L x = some xs → xs = []
  notMem : ∀ h xs, L h = some xs → x ∉ xs

variable {A : Type} {m m' : LinkMem A} {L : Family A} {h g x : A} {xs ys : List A}

theorem Loose.notMem_cons (hx : Loose L x) (hL : L h = some xs) (hne : h ≠ x) : x ∉ h :: xs :=
  fun hmem => (List.mem_cons.mp hmem).elim (fun heq => hne heq.symm) (hx.notMem h xs hL)

theorem loose_none (x : A) : Loose (fun _ => none) x where
  empty := fun _ hL => nomatch hL
  notMem := fun _ _ hL => nomatch hL

theorem Loose.update [DecidableEq A] {o : Option (List A)} (hx : Loose L x) (hne : x ≠ h)
    (hout : x ∉ o.getD []) : Loose (Function.update L h o) x where
  empty := by
    rw [Function.update_of_ne hne]
    exact hx.empty
  notMem := by
    intro g xs hL
    by_cases hg : g = h
    · rw [hg, Function.update_self] at hL
      rwa [hL] at hout
    · rw [Function.update_of_ne hg] at hL
      exact hx.notMem g xs hL

/-- An address that none of the changes mentions. -/
theorem Loose.updates [DecidableEq A] {ps : List (A × Option (List A))} (hx : Loose L x)
    (hps : ∀ p ∈ ps, x ≠ p.1 ∧ x ∉ p.2.getD []) :
    Loose (ps.foldl (fun L p => Function.update L p.1 p.2) L) x := by
  induction ps generalizing L with
  | nil => exact hx
  | cons p ps ih =>
      obtain ⟨hp, hps⟩ := List.forall_mem_cons.mp hps
      exact ih (hx.update hp.1 hp.2) hps

/-- Nothing needs to be known of the memory to hold no list. -/
theorem represents_none (m : LinkMem A) : Represents m fun _ => none where
  ring := fun _ _ hL => nomatch hL
  disjoint := fun _ _ _ _ _ hL => nomatch hL

variable [DecidableEq A]

/-! ## Frames -/

theorem insertBetween_of_ne {p n a : A} (hx : a ≠ x) (hp : a ≠ p) (hn : a ≠ n) :
    insertBetween m x p n a = m a := by
  simp [insertBetween, setNext, setPrev, hx, hp, hn]

theorem bypass_of_ne {p n a : A} (hp : a ≠ p) (hn : a ≠ n) : bypass m p n a = m a := by
  simp [bypass, setNext, setPrev, hp, hn]

theorem selfLink_of_ne {a : A} (hx : a ≠ x) : selfLink m x a = m a := by
  simp [selfLink, setNext, setPrev, hx]

theorem spliceBetween_of_ne {first last p n a : A} (hf : a ≠ first) (hl : a ≠ last) (hp : a ≠ p)
    (hn : a ≠ n) : spliceBetween m first last p n a = m a := by
  simp [spliceBetween, setNext, setPrev, hf, hl, hp, hn]

/-! ## Changing one list -/

namespace Represents

/-- A list may be forgotten. -/
theorem erase (hr : Represents m L) (g : A) : Represents m (Function.update L g none) := by
  have hold : ∀ h xs, Function.update L g none h = some xs → L h = some xs := by
    intro h xs hL
    by_cases hg : h = g
    · rw [hg, Function.update_self] at hL
      cases hL
    · rwa [Function.update_of_ne hg] at hL
  exact ⟨fun h xs hL => hr.ring h xs (hold h xs hL), fun h g xs ys hne hL hL' =>
    hr.disjoint h g xs ys hne (hold h xs hL) (hold g ys hL')⟩

/-- One list gets a new sequence; the others are neither written to nor entered. -/
theorem set {zs : List A} (hr : Represents m L) (hring : IsRing m' h zs)
    (hout : ∀ g ys, g ≠ h → L g = some ys →
      (∀ a ∈ g :: ys, m' a = m a) ∧ List.Disjoint (h :: zs) (g :: ys)) :
    Represents m' (Function.update L h (some zs)) := by
  refine ⟨fun g ys hL => ?_, fun g g' ys ys' hne hL hL' => ?_⟩
  · by_cases hg : g = h
    · subst hg
      rw [Function.update_self] at hL
      exact Option.some.inj hL ▸ hring
    · rw [Function.update_of_ne hg] at hL
      exact (hr.ring g ys hL).congr (hout g ys hg hL).1
  · by_cases hg : g = h
    · subst hg
      rw [Function.update_self] at hL
      rw [Function.update_of_ne (Ne.symm hne)] at hL'
      exact Option.some.inj hL ▸ (hout g' ys' (Ne.symm hne) hL').2
    · rw [Function.update_of_ne hg] at hL
      by_cases hg' : g' = h
      · subst hg'
        rw [Function.update_self] at hL'
        obtain rfl := Option.some.inj hL'
        exact fun a ha hb => (hout g ys hg hL).2 hb ha
      · rw [Function.update_of_ne hg'] at hL'
        exact hr.disjoint g g' ys ys' hne hL hL'

/-- What linking `x` into the list of `h`, next to members of it, does to the family. -/
theorem insert {p n : A} {zs : List A} (hr : Represents m L) (hL : L h = some xs) (hx : Loose L x)
    (hne : h ≠ x) (hp : p ∈ h :: xs) (hn : n ∈ h :: xs)
    (hring : IsRing (insertBetween m x p n) h zs) (hzs : ∀ a ∈ h :: zs, a = x ∨ a ∈ h :: xs) :
    Represents (insertBetween m x p n)
      (Function.update (Function.update L x none) h (some zs)) := by
  refine (hr.erase x).set hring fun g ys hgh hg => ?_
  have hgx : g ≠ x := by
    rintro rfl
    rw [Function.update_self] at hg
    cases hg
  rw [Function.update_of_ne hgx] at hg
  have hout : ∀ a ∈ g :: ys, a ≠ x ∧ a ∉ h :: xs := by
    refine fun a ha => ⟨fun heq => hx.notMem_cons hg hgx (heq ▸ ha), fun hmem => ?_⟩
    exact hr.disjoint h g xs ys (Ne.symm hgh) hL hg hmem ha
  refine ⟨fun a ha => ?_, fun a ha hb => ?_⟩
  · obtain ⟨hax, hah⟩ := hout a ha
    exact insertBetween_of_ne hax (fun heq => hah (heq ▸ hp)) fun heq => hah (heq ▸ hn)
  · obtain ⟨hax, hah⟩ := hout a hb
    exact (hzs a ha).elim hax hah

theorem insert_after {p : A} {l r : List A} (hr : Represents m L) (hL : L h = some xs)
    (hx : Loose L x) (hne : h ≠ x) (hsplit : h :: xs = l ++ p :: r) :
    Represents (insertBetween m x p (m p).next)
      (Function.update (Function.update L x none) h (some (l ++ p :: x :: r).tail)) := by
  have hring := hr.ring h xs hL
  have hp : p ∈ h :: xs := by simp [hsplit]
  refine hr.insert hL hx hne hp (hring.next_prev_mem hp).1
    (hring.insert_after (hx.notMem_cons hL hne) hsplit) fun a ha => ?_
  rcases List.mem_cons.mp ha with rfl | hmem
  · exact .inr List.mem_cons_self
  · rw [hsplit]
    have hmem' := List.mem_of_mem_tail hmem
    simp only [List.mem_append, List.mem_cons] at hmem' ⊢
    tauto

theorem insert_before {p : A} {l r : List A} (hr : Represents m L) (hL : L h = some xs)
    (hx : Loose L x) (hne : h ≠ x) (hsplit : xs ++ [h] = l ++ p :: r) :
    Represents (insertBetween m x (m p).prev p)
      (Function.update (Function.update L x none) h (some (l ++ x :: p :: r).dropLast)) := by
  have hring := hr.ring h xs hL
  have hmem_iff : ∀ a, a ∈ h :: xs ↔ a ∈ l ++ p :: r := by
    intro a
    rw [← hsplit]
    simp [or_comm]
  have hp : p ∈ h :: xs := (hmem_iff p).mpr (by simp)
  refine hr.insert hL hx hne (hring.next_prev_mem hp).2 hp
    (hring.insert_before (hx.notMem_cons hL hne) hsplit) fun a ha => ?_
  rcases List.mem_cons.mp ha with rfl | hmem
  · exact .inr List.mem_cons_self
  · rw [hmem_iff]
    have hmem' := (List.dropLast_sublist _).subset hmem
    simp only [List.mem_append, List.mem_cons] at hmem' ⊢
    tauto

theorem remove {l r : List A} (hr : Represents m L) (hL : L h = some (l ++ x :: r)) :
    Represents (bypass m (m x).prev (m x).next) (Function.update L h (some (l ++ r))) := by
  have hring := hr.ring h _ hL
  have hx : x ∈ h :: (l ++ x :: r) := by simp
  obtain ⟨hn, hp⟩ := hring.next_prev_mem hx
  refine hr.set hring.remove fun g ys hgh hg => ?_
  have hdis := hr.disjoint h g _ ys (Ne.symm hgh) hL hg
  refine ⟨fun a ha => ?_, fun a ha hb => hdis ?_ hb⟩
  · exact bypass_of_ne (fun heq => hdis (heq ▸ hp) ha) fun heq => hdis (heq ▸ hn) ha
  · simp only [List.mem_cons, List.mem_append] at ha ⊢
    tauto

/-- A removed element is in no list any more. -/
theorem loose_of_remove {l r : List A} (hr : Represents m L) (hL : L h = some (l ++ x :: r)) :
    Loose (Function.update L h (some (l ++ r))) x := by
  have hnd := (hr.ring h _ hL).nodup
  have hxh : x ≠ h := by
    rintro rfl
    exact (List.nodup_cons.mp hnd).1 (by simp)
  have hxl : x ∉ l ++ r := (List.nodup_middle.mp (List.nodup_cons.mp hnd).2 |> List.nodup_cons.mp).1
  refine ⟨fun xs hx => ?_, fun g ys hg => ?_⟩
  · rw [Function.update_of_ne hxh] at hx
    exact absurd List.mem_cons_self
      (hr.disjoint h x _ xs (Ne.symm hxh) hL hx (by simp : x ∈ h :: (l ++ x :: r)))
  · by_cases hgh : g = h
    · rw [hgh, Function.update_self] at hg
      exact Option.some.inj hg ▸ hxl
    · rw [Function.update_of_ne hgh] at hg
      exact fun hmem => hr.disjoint h g _ ys (Ne.symm hgh) hL hg (by simp : x ∈ h :: (l ++ x :: r))
        (List.mem_cons_of_mem g hmem)

/-- An address that is in no list may become an empty one. -/
theorem selfLink (hr : Represents m L) (hx : ∀ g ys, L g = some ys → x ∉ ys) :
    Represents (selfLink m x) (Function.update L x (some [])) := by
  refine hr.set (isRing_selfLink m x) fun g ys hgx hg => ?_
  have hmem : x ∉ g :: ys :=
    fun hmem => (List.mem_cons.mp hmem).elim (fun heq => hgx heq.symm) (hx g ys hg)
  refine ⟨fun a ha => selfLink_of_ne fun heq => hmem (heq ▸ ha), fun a ha hb => ?_⟩
  obtain rfl := List.mem_singleton.mp ha
  exact hmem hb

/-- A whole list moves into another one; its head is then in no list. -/
theorem splice {first last p : A} {l r : List A} (hr : Represents m L) (hL : L h = some xs)
    (hg : L g = some ys) (hne : g ≠ h) (hfirst : ys.head? = some first)
    (hlast : ys.getLast? = some last) (hsplit : h :: xs = l ++ p :: r) :
    Represents (spliceBetween m first last p (m p).next)
      (Function.update (Function.update L g none) h (some (l ++ p :: (ys ++ r)).tail)) := by
  have hring := hr.ring h xs hL
  have hp : p ∈ h :: xs := by simp [hsplit]
  have hn := (hring.next_prev_mem hp).1
  have hdis := hr.disjoint g h ys xs hne hg hL
  refine (hr.erase g).set (hring.splice (hr.ring g ys hg) hdis hfirst hlast hsplit)
    fun k zs hkh hk => ?_
  have hkg : k ≠ g := by
    rintro rfl
    rw [Function.update_self] at hk
    cases hk
  rw [Function.update_of_ne hkg] at hk
  have hdish := hr.disjoint h k xs zs (Ne.symm hkh) hL hk
  have hdisg := hr.disjoint g k ys zs (Ne.symm hkg) hg hk
  have hys : ∀ a ∈ ys, a ∉ k :: zs := fun a ha hb => hdisg (List.mem_cons_of_mem g ha) hb
  refine ⟨fun a ha => ?_, fun a ha hb => ?_⟩
  · exact spliceBetween_of_ne (fun heq => hys first (List.mem_of_head? hfirst) (heq ▸ ha))
      (fun heq => hys last (List.mem_of_getLast? hlast) (heq ▸ ha))
      (fun heq => hdish (heq ▸ hp) ha) fun heq => hdish (heq ▸ hn) ha
  · rcases List.mem_cons.mp ha with rfl | hmem
    · exact hdish List.mem_cons_self hb
    · have hmem' := List.mem_of_mem_tail hmem
      have hcases : a ∈ ys ∨ a ∈ h :: xs := by
        rw [hsplit]
        simp only [List.mem_append, List.mem_cons] at hmem' ⊢
        tauto
      exact hcases.elim (fun hin => hys a hin hb) fun hin => hdish hin hb

end Represents

end Ring
