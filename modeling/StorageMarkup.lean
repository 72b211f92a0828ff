import StorageMarkup.Main
import StorageMarkup.Files.Conversion
import StorageMarkup.Job
import StorageMarkup.Template
import StorageMarkup.Proofs.Region.Grammar
import StorageMarkup.Proofs.Document.Unmarked
import StorageMarkup.Proofs.Document.Conservation
import StorageMarkup.Proofs.Document.Verbatim
import StorageMarkup.Proofs.Vault.Restoring
import StorageMarkup.Proofs.Directive.Gaps
import StorageMarkup.Proofs.Document.Independence
import StorageMarkup.Proofs.Source.Conserved
import StorageMarkup.Proofs.Document.Composition
import StorageMarkup.Proofs.Document.CrossReferences
import StorageMarkup.Proofs.Region.FirstClosing
import StorageMarkup.Proofs.Region.Stable
import StorageMarkup.Proofs.Document.Nesting
import StorageMarkup.Proofs.Html.Canonical
import StorageMarkup.Proofs.Html.Nesting
import StorageMarkup.Proofs.Footnote.Labels
import StorageMarkup.Proofs.Footnote.Contents
import StorageMarkup.Proofs.Mapping.Flattening
import StorageMarkup.Proofs.Directive.ReadBack
import StorageMarkup.Proofs.Source.SetApart
import StorageMarkup.Proofs.Tree.Preserved
import StorageMarkup.Proofs.Mapping.Normal
import StorageMarkup.Proofs.Directive.BlockTokens
import StorageMarkup.Proofs.Source.Fences
import StorageMarkup.Proofs.Directive.Parameters
import StorageMarkup.Proofs.Command.Documents
import StorageMarkup.Proofs.Document.BlankLines
