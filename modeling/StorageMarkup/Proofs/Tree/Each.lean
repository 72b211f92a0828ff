import StorageMarkup.Proofs.Node.Each
import StorageMarkup.Proofs.Node.Strings
import StorageMarkup.Proofs.Text.Lines
import StorageMarkup.Proofs.Tree.Shielded
import StorageMarkup.Proofs.Tree.Success

/-!
# What the passes before mapping leave

Each text that the first two passes leave was there before, or is a line of a text that
was, and each element was there before but for its namespaces. The third pass changes the
texts and the attributes one by one, the vault growing on the way.

Results:
1. `each_bodyOf`, `each_liftMarkersAmong`: a property of every text and every element stays.
2. `each_shieldNodes`: what setting directives aside makes of a property.
-/

namespace StorageMarkup

open Node

variable {T T' : List Char → Prop} {E E' : List Char → Attributes → Prop} {nodes : List Node}

theorem Node.All.texts {P : List Char → Prop} {n : Node} (h : n.All P) : ∀ s ∈ n.texts, P s := by
  induction h with
  | text h => exact List.forall_mem_singleton.2 h
  | raw => exact fun s hs => absurd hs List.not_mem_nil
  | element _ _ _ ih | root _ ih =>
    rw [Node.texts, textsOf_eq, List.forall_mem_flatMap]
    exact ih

theorem Node.All.each {P : List Char → Prop} {n : Node} (h : n.All P) :
    n.Each P fun _ _ => True := each_of_texts n h.texts

/-- A pass that looks at each node by itself. -/
theorem each_flatMap {f : Node → List Node} (hf : ∀ n : Node, n.Each T E → ∀ m ∈ f n, m.Each T E)
    (h : ∀ n ∈ nodes, n.Each T E) : ∀ m ∈ nodes.flatMap f, m.Each T E :=
  List.forall_mem_flatMap.2 fun n hn => hf n (h n hn)

theorem each_bodyOf (hE : ∀ tag attrs, E tag attrs → E tag attrs.withoutNamespaces)
    (h : ∀ n ∈ nodes, n.Each T E) : ∀ m ∈ bodyOf nodes, m.Each T E := by
  rw [bodyOf_eq]
  refine each_flatMap (fun n hn => ?_) h
  induction hn with
  | text h => exact List.forall_mem_singleton.2 (.text h)
  | raw s => exact List.forall_mem_singleton.2 (.raw s)
  | root h => exact List.forall_mem_singleton.2 (.root h)
  | @element tag attrs children he hc ih =>
    have hinner : ∀ m ∈ bodyOf children, m.Each T E := by
      rw [bodyOf_eq]
      exact List.forall_mem_flatMap.2 ih
    rw [body]
    split
    · exact fun m hm => absurd hm List.not_mem_nil
    · split
      · exact hinner
      · exact List.forall_mem_singleton.2 (.element (hE tag attrs he) hinner)

theorem infix_of_mem_contentLines {line s : List Char} (h : line ∈ contentLines s) :
    line <:+: s := by
  obtain ⟨l, hl, rfl⟩ := List.mem_map.1 h
  exact (strip_infix_self l).trans (infix_of_mem_lines (List.mem_filter.1 hl).1)

theorem each_markers {ls : List (List Char)} (hfeed : T ['\n']) (h : ∀ line ∈ ls, T line) :
    ∀ m ∈ markers ls, m.Each T E := by
  induction ls with
  | nil => exact fun m hm => absurd hm List.not_mem_nil
  | cons line ls ih =>
    rw [List.forall_mem_cons] at h
    cases ls with
    | nil => exact List.forall_mem_singleton.2 (.text h.1)
    | cons => exact List.forall_mem_cons.2 ⟨.text h.1,
        List.forall_mem_cons.2 ⟨.text hfeed, ih h.2⟩⟩

theorem each_markersOf? {v : Option Vault} {tag : List Char} {children : List Node}
    {ls : List (List Char)} (hT : ∀ s t, T s → t <:+: s → T t)
    (h : ∀ c ∈ children, c.Each T E) (hls : markersOf? v tag children = some ls) :
    ∀ line ∈ ls, T line := by
  unfold markersOf? at hls
  split at hls
  · next s =>
    obtain ⟨-, he⟩ := Option.ite_none_right_eq_some.1 hls
    cases he
    intro line hline
    exact hT s line (h _ List.mem_cons_self).of_text (infix_of_mem_contentLines hline)
  · cases hls

theorem each_liftMarkersAmong {v : Option Vault} (hfeed : T ['\n'])
    (hT : ∀ s t, T s → t <:+: s → T t) (h : ∀ n ∈ nodes, n.Each T E) :
    ∀ m ∈ liftMarkersAmong v nodes, m.Each T E := by
  rw [liftMarkersAmong_eq]
  refine each_flatMap (fun n hn => ?_) h
  induction hn with
  | text h => exact List.forall_mem_singleton.2 (.text h)
  | raw s => exact List.forall_mem_singleton.2 (.raw s)
  | root h => exact List.forall_mem_singleton.2 (.root h)
  | @element tag attrs children he hc ih =>
    rw [liftMarkers]
    split
    · next hls => exact each_markers hfeed (each_markersOf? hT hc hls)
    · rw [liftMarkersAmong_eq]
      exact List.forall_mem_singleton.2 (.element he (List.forall_mem_flatMap.2 ih))

section Shielding

variable {w : Vault}

theorem each_shieldNodes_of_each
    (h : ∀ n ∈ nodes, ∀ v : Vault, (v.shieldNode n).1.Extends w → (v.shieldNode n).2.Each T E)
    (v : Vault) (hw : (v.shieldNodes nodes).1.Extends w) :
    ∀ m ∈ (v.shieldNodes nodes).2, m.Each T E := by
  induction nodes generalizing v with
  | nil => exact fun m hm => absurd hm List.not_mem_nil
  | cons n nodes ih =>
    rw [List.forall_mem_cons] at h
    have hfirst : (v.shieldNode n).1.Extends w := (shieldNodes_extends _ nodes).trans hw
    exact List.forall_mem_cons.2 ⟨h.1 v hfirst, ih h.2 _ hw⟩

/-- A tree inside the tree stays as it is, so there both properties have to go over by
themselves. -/
theorem each_shieldNodes (hT : ∀ s, T s → T' s) (hE : ∀ tag attrs, E tag attrs → E' tag attrs)
    (hshield : ∀ (v : Vault) s, (v.shield s).1.Extends w → T s → T' (v.shield s).2)
    (hattrs : ∀ (v : Vault) tag attrs, E tag attrs → E' tag (v.shieldAttributes attrs).2)
    (h : ∀ n ∈ nodes, n.Each T E) (v : Vault) (hw : (v.shieldNodes nodes).1.Extends w) :
    ∀ m ∈ (v.shieldNodes nodes).2, m.Each T' E' := by
  refine each_shieldNodes_of_each (fun n hn => ?_) v hw
  have he := h n hn
  clear hn
  induction he with
  | text h => exact fun v hw => .text (hshield v _ hw h)
  | raw s => exact fun _ _ => .raw s
  | root h _ => exact fun _ _ => .root fun c hc => (h c hc).mono hT hE
  | element he hc ih =>
    exact fun v hw => .element (hattrs v _ _ he) (each_shieldNodes_of_each ih _ hw)

end Shielding

end StorageMarkup
