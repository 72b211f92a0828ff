import StorageMarkup.Proofs.Tree.Shielded
import StorageMarkup.Proofs.Vault.Restoring

/-!
# Trees put back

What a vault puts back into a text it puts back into a whole tree: into the texts, and into the
attribute values that are texts or lists of texts. Setting the directives of a tree aside is undone
by the vault that they end up in, whatever is set aside after them.

Results:
1. `Vault.expandNodes`, `Node.Restorable`: trees put back, and trees that can be.
2. `PutsBack.map₂`: steps that set directives aside one after the other.
3. `expandNodes_shieldNodes`: a whole tree.
-/

namespace StorageMarkup

open Vault

variable {α β γ : Type} {u v : Vault} {s : List Char} {nodes : List Node}

/-! ## Putting back -/

namespace Vault

def expandItem (v : Vault) : Value → Value
  | .text s => .text (v.expand s)
  | item => item

def expandValue (v : Vault) : Value → Value
  | .list items => .list (items.map v.expandItem)
  | value => v.expandItem value

def expandAttributes (v : Vault) (attrs : Attributes) : Attributes :=
  attrs.map fun (name, value) => (name, v.expandValue value)

theorem expandItem_text (v : Vault) (s : List Char) :
    v.expandItem (.text s) = .text (v.expand s) := by
  rw [expandItem]

theorem expandValue_text (v : Vault) (s : List Char) :
    v.expandValue (.text s) = .text (v.expand s) := by
  rw [expandValue, expandItem_text]
  exact nofun

mutual

/-- A node with the placeholders in its texts and attribute values put back. -/
def expandNode (v : Vault) : Node → Node
  | .text s => .text (v.expand s)
  | .raw s => .raw s
  | .element tag attrs children => .element tag (v.expandAttributes attrs) (v.expandNodes children)
  | .root children => .root (v.expandNodes children)

def expandNodes (v : Vault) : List Node → List Node
  | [] => []
  | n :: rest => v.expandNode n :: v.expandNodes rest

end

end Vault

/-- The texts of a value that placeholders are put back into. -/
def Value.ownTexts : Value → List (List Char)
  | .text s => [s]
  | .list items => items.filterMap Value.text?
  | _ => []

/-- No root is inside, and each start mark in a text or an attribute value starts a placeholder of
the vault. -/
inductive Node.Restorable (v : Vault) : Node → Prop
  | text {s : List Char} (h : Intact (· < v.size) s) : Restorable v (.text s)
  | raw (s : List Char) : Restorable v (.raw s)
  | element {tag : List Char} {attrs : Attributes} {children : List Node}
      (hattrs : ∀ a ∈ attrs, ∀ s ∈ a.2.ownTexts, Intact (· < v.size) s)
      (h : ∀ c ∈ children, Restorable v c) : Restorable v (.element tag attrs children)

/-- Two readings that go through children in order agree on a tree if they agree on its leaves, and
on an element whenever they do on its children. -/
theorem flatMap_eq_of_restorable {f g : Node → List α}
    (text : ∀ s, Intact (· < v.size) s → f (.text s) = g (.text s))
    (raw : ∀ s, f (.raw s) = g (.raw s))
    (element : ∀ tag attrs children, (∀ c ∈ children, c.Restorable v) →
      children.flatMap f = children.flatMap g →
        f (.element tag attrs children) = g (.element tag attrs children))
    (h : ∀ n ∈ nodes, n.Restorable v) : nodes.flatMap f = nodes.flatMap g := by
  refine List.flatMap_congr fun n hn => ?_
  have hnode := h n hn
  clear hn
  induction hnode with
  | text h => exact text _ h
  | raw s => exact raw s
  | element _ hc ih => exact element _ _ _ hc (List.flatMap_congr ih)

/-! ## Steps -/

/-- From a vault that has grown out of `u` the step goes to one in order that has grown further;
and that vault, like all that grow out of it, puts `x` back as `u` does. -/
def PutsBack (u : Vault) (expand : Vault → α → α) (step : Vault → Vault × α) (x : α) : Prop :=
  ∀ v, u.Extends v → v.Ordered → (step v).1.Ordered ∧ v.Extends (step v).1 ∧
    ∀ w, w.Ordered → (step v).1.Extends w → expand w (step v).2 = expand u x

namespace PutsBack

variable {expand : Vault → α → α} {step : Vault → Vault × α} {x : α}
  {expand' : Vault → β → β} {step' : Vault → Vault × β} {y : β} {expand'' : Vault → γ → γ}

theorem same (h : ∀ w, expand w x = expand u x) : PutsBack u expand (fun v => (v, x)) x :=
  fun v _ hv => ⟨hv, .refl v, fun w _ _ => h w⟩

theorem map {f : α → β} (hf : ∀ w a, expand' w (f a) = f (expand w a))
    (h : PutsBack u expand step x) :
    PutsBack u expand' (fun v => ((step v).1, f (step v).2)) (f x) := by
  intro v hu hv
  obtain ⟨hordered, hgrown, hback⟩ := h v hu hv
  refine ⟨hordered, hgrown, fun w hw hvw => ?_⟩
  rw [hf, hf, hback w hw hvw]

/-- The second step starts from the vault that the first has left. -/
theorem map₂ {f : α → β → γ} (hf : ∀ w a b, expand'' w (f a b) = f (expand w a) (expand' w b))
    (h : PutsBack u expand step x) (h' : PutsBack u expand' step' y) :
    PutsBack u expand'' (fun v => ((step' (step v).1).1, f (step v).2 (step' (step v).1).2))
      (f x y) := by
  intro v hu hv
  obtain ⟨hordered, hgrown, hback⟩ := h v hu hv
  obtain ⟨hordered', hgrown', hback'⟩ := h' (step v).1 (hu.trans hgrown) hordered
  refine ⟨hordered', hgrown.trans hgrown', fun w hw hvw => ?_⟩
  rw [hf, hf, hback w hw (hgrown'.trans hvw), hback' w hw hvw]

end PutsBack

section

variable (hu : u.Ordered)

include hu

theorem putsBack_shield (hs : Intact (· < u.size) s) :
    PutsBack u Vault.expand (fun v => v.shield s) s := by
  intro v huv hv
  obtain ⟨hordered, hintact⟩ := hv.shield hs huv.size_le
  refine ⟨hordered, shield_extends v s, fun w hw hvw => ?_⟩
  rw [hordered.expand_grow hw hvw hintact, Ordered.expand_shield hs hv huv.size_le,
    hu.expand_grow hv huv hs]

theorem putsBack_shieldItems {items : List Value}
    (h : ∀ s ∈ items.filterMap Value.text?, Intact (· < u.size) s) :
    PutsBack u (fun w items => items.map w.expandItem) (fun v => v.shieldItems items) items := by
  induction items with
  | nil => exact .same fun _ => List.map_nil.trans List.map_nil.symm
  | cons item items ih =>
    cases item with
    | text s =>
      have h : ∀ t ∈ s :: items.filterMap Value.text?, Intact (· < u.size) t := h
      rw [List.forall_mem_cons] at h
      have hcons : ∀ (w : Vault) s items, List.map w.expandItem (.text s :: items) =
          .text (w.expand s) :: items.map w.expandItem := fun w s items => by
        rw [List.map_cons, expandItem_text]
      exact .map₂ (f := fun s items => .text s :: items) hcons (putsBack_shield hu h.1) (ih h.2)
    | absent | flag | number | list | record | other =>
      exact .map (f := List.cons _) (fun _ _ => rfl) (ih h)

theorem putsBack_shieldValue {value : Value}
    (h : ∀ s ∈ value.ownTexts, Intact (· < u.size) s) :
    PutsBack u Vault.expandValue (fun v => v.shieldValue value) value := by
  cases value with
  | text s =>
    exact .map (f := Value.text) expandValue_text
      (putsBack_shield hu (List.forall_mem_singleton.1 h))
  | list items => exact .map (f := Value.list) (fun _ _ => rfl) (putsBack_shieldItems hu h)
  | absent | flag | number | record | other => exact .same fun _ => rfl

theorem putsBack_shieldAttributes {attrs : Attributes}
    (h : ∀ a ∈ attrs, ∀ s ∈ a.2.ownTexts, Intact (· < u.size) s) :
    PutsBack u Vault.expandAttributes (fun v => v.shieldAttributes attrs) attrs := by
  induction attrs with
  | nil => exact .same fun _ => List.map_nil.trans List.map_nil.symm
  | cons a attrs ih =>
    rw [List.forall_mem_cons] at h
    exact .map₂ (f := fun value attrs => (a.1, value) :: attrs) (fun _ _ _ => rfl)
      (putsBack_shieldValue hu h.1) (ih h.2)

omit hu in
theorem putsBack_shieldNodes_of_each
    (h : ∀ n ∈ nodes, PutsBack u Vault.expandNode (fun v => v.shieldNode n) n) :
    PutsBack u Vault.expandNodes (fun v => v.shieldNodes nodes) nodes := by
  induction nodes with
  | nil => exact .same fun _ => rfl
  | cons n nodes ih =>
    rw [List.forall_mem_cons] at h
    exact .map₂ (f := List.cons) (fun _ _ _ => rfl) h.1 (ih h.2)

theorem putsBack_shieldNode {n : Node} (h : n.Restorable u) :
    PutsBack u Vault.expandNode (fun v => v.shieldNode n) n := by
  induction h with
  | text h => exact .map (f := Node.text) (fun _ _ => rfl) (putsBack_shield hu h)
  | raw s => exact .same fun _ => rfl
  | @element tag attrs children hattrs _ ih =>
    exact .map₂ (f := Node.element tag) (fun _ _ _ => rfl) (putsBack_shieldAttributes hu hattrs)
      (putsBack_shieldNodes_of_each ih)

end

/-- Setting the directives of a tree aside is undone by the vault that it leaves. -/
theorem expandNodes_shieldNodes (hv : v.Ordered) (h : ∀ n ∈ nodes, n.Restorable v) :
    (v.shieldNodes nodes).1.Ordered ∧ v.Extends (v.shieldNodes nodes).1 ∧
      (v.shieldNodes nodes).1.expandNodes (v.shieldNodes nodes).2 = v.expandNodes nodes := by
  have hback := putsBack_shieldNodes_of_each fun n hn => putsBack_shieldNode hv (h n hn)
  obtain ⟨hordered, hgrown, hsame⟩ := hback v (.refl v) hv
  exact ⟨hordered, hgrown, hsame _ hordered (.refl _)⟩

end StorageMarkup
