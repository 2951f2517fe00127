import EditLens.Check
import EditLens.Convert
import EditLens.Json.Writer
import EditLens.Lens.Blank
import EditLens.Lens.Dump
import EditLens.Lens.Shorthand
import EditLens.Patch.Lemmas
import EditLens.Proofs.Lens.Admitting
import EditLens.Proofs.Lens.Completing
import EditLens.Proofs.Lens.Reforming
import EditLens.Proofs.Lens.Tracking
import EditLens.Proofs.Lens.Retracing
import EditLens.Proofs.Lens.Wrapping
import EditLens.Proofs.Schema.Simple
import EditLens.Proofs.Json.Layout
import EditLens.Proofs.Lens.Plunging
import EditLens.Proofs.Lens.Placing
import EditLens.Proofs.Patch.Expanding
import EditLens.Proofs.Lens.Nullable
import EditLens.Proofs.Lens.Removing
import EditLens.Proofs.Lens.Identity
import EditLens.Proofs.Lens.Listed
import EditLens.Proofs.Lens.Composing
import EditLens.Proofs.Lens.Spelling
import EditLens.Proofs.Patch.Redoing
import EditLens.Proofs.Schema.Filled
import EditLens.Proofs.Lens.Leading
import EditLens.Proofs.Lens.Reconverting
import EditLens.Proofs.Lens.Returning
import EditLens.Proofs.Lens.Reversing
import EditLens.Proofs.Lens.Independent
import EditLens.Proofs.Lens.Restoring
import EditLens.Proofs.Lens.Heading
import EditLens.Proofs.Lens.Nesting
import EditLens.Proofs.Schema.Consistent
import EditLens.Proofs.Lens.Inverting
import EditLens.Proofs.Lens.Recoding
import EditLens.Proofs.Lens.Refusing
import EditLens.Proofs.Schema.Nonnull
import EditLens.Proofs.Schema.Skeleton
import EditLens.Proofs.Pointer.Escaping
