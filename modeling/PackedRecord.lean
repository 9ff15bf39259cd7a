import PackedRecord.Bundle.Basic
import PackedRecord.Bundle.Json
import PackedRecord.ByteOrder
import PackedRecord.Bytes.Access
import PackedRecord.Bytes.FixedWidth
import PackedRecord.Bytes.Word
import PackedRecord.Bytes.Writer
import PackedRecord.Catalog
import PackedRecord.Composite
import PackedRecord.Composite.Stock
import PackedRecord.Contract
import PackedRecord.Decimal.Double
import PackedRecord.Decimal.Shortest
import PackedRecord.Error
import PackedRecord.Exchange
import PackedRecord.FieldKind
import PackedRecord.Generation
import PackedRecord.IntegerType
import PackedRecord.Json.Basic
import PackedRecord.Json.Lexer
import PackedRecord.Json.Printer
import PackedRecord.Json.Reader
import PackedRecord.Layout
import PackedRecord.Offset
import PackedRecord.Procedure
import PackedRecord.RecordCodec.Basic
import PackedRecord.RecordCodec.Decode
import PackedRecord.RecordCodec.Encode
import PackedRecord.RecordCodec.Nested
import PackedRecord.Registry
import PackedRecord.Schema
import PackedRecord.Source.Identifier
import PackedRecord.Source.Render
import PackedRecord.Text.Blank
import PackedRecord.Text.Numeral
import PackedRecord.TypeRef
import PackedRecord.Value
import PackedRecord.Proofs.Access
import PackedRecord.Proofs.IntegerWord
import PackedRecord.Proofs.Storage
import PackedRecord.Proofs.Compilation
import PackedRecord.Proofs.CursorRun
import PackedRecord.Proofs.PlainReader
import PackedRecord.Proofs.Agreement
import PackedRecord.Proofs.ComponentLaw
import PackedRecord.Proofs.RoundTrip
import PackedRecord.Proofs.Reencoding
import PackedRecord.Proofs.Consumption
import PackedRecord.Proofs.BufferIndependence
import PackedRecord.Proofs.DemandedRoom
import PackedRecord.Proofs.PlainWriter
import PackedRecord.Proofs.PlainValue
import PackedRecord.Proofs.ExchangeRoundTrip
import PackedRecord.Proofs.Shape
import PackedRecord.Proofs.WellFormedBuffer
import PackedRecord.Proofs.EncodingProgress
import PackedRecord.Proofs.ConformingRecord
import PackedRecord.Proofs.BundleCatalog
import PackedRecord.Proofs.FailedEncoding
import PackedRecord.Proofs.NestedCalls
import PackedRecord.Proofs.CatalogHistory
import PackedRecord.Proofs.IndependentDeclarations
import PackedRecord.Proofs.ComponentCalls
import PackedRecord.Proofs.HonouredContracts
import PackedRecord.Proofs.RecordInBuffer
import PackedRecord.Proofs.ByteOrderMirror
import PackedRecord.Proofs.BoundLengths
import PackedRecord.Proofs.Refusals
import PackedRecord.Proofs.TypeText
import PackedRecord.Proofs.FieldSpans
import PackedRecord.Proofs.TypedWords
import PackedRecord.Proofs.ReadableText
import PackedRecord.Proofs.ReadableLines
import PackedRecord.Proofs.ReadableSource
import PackedRecord.Proofs.PlainJson
import PackedRecord.Proofs.BundleParts
import PackedRecord.Proofs.BundleDocument
import PackedRecord.Proofs.LinePieces
import PackedRecord.Proofs.ScopedNames
import PackedRecord.Proofs.StoredWord
import PackedRecord.Proofs.SignExtension
import PackedRecord.Proofs.OffsetText
