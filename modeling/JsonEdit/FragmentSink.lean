/-!
# Sinks of fragments

Whatever takes the fragments of an edited document in turn. Taking one may fail.

* `FragmentSink`: the operation;
* a text, which grows, and a list, which keeps the fragments apart.
-/

namespace JsonEdit

/-- Takes fragments in turn; a failure comes with a message. -/
class FragmentSink (σ : Type) where
  emit : σ → String → Except String Unit × σ

/-- A text grows by each fragment. -/
instance : FragmentSink String where
  emit text fragment := (.ok (), text ++ fragment)

/-- An array keeps the fragments apart. -/
instance : FragmentSink (Array String) where
  emit fragments fragment := (.ok (), fragments.push fragment)

@[simp] theorem FragmentSink.emit_text (text fragment : String) :
    FragmentSink.emit text fragment = (.ok (), text ++ fragment) := rfl

@[simp] theorem FragmentSink.emit_array (fragments : Array String) (fragment : String) :
    FragmentSink.emit fragments fragment = (.ok (), fragments.push fragment) := rfl

end JsonEdit
